import Shroud.Proofs.Consistency
import Shroud.Proofs.Forms
import Shroud.Proofs.Lawful
import Shroud.Proofs.Recursion

/-!
# What expressions mention

A call names a function by what the called expression refers to. Other expressions may hold parts of a circuit: its
variables, or the keys and the randomness that operations on ciphertexts need. The passes over expressions change types,
marks and implicit conversions; here it is shown that an expression never mentions anything afterwards that it did not
mention before.

**More than mentions.** Whether an expression is a call depends on the called part: operators and names of types are not
called. So what a pass keeps of a part is not only what is mentioned in it but also whether it is an operator and what it
refers to (`Expr.MentionsNoMore`). An implicit conversion may wrap the whole value, but never a called part; of it only the
mentions are kept (`Expr.coerce_mentions`).

**Results.** `Expr.check_mentionsNoMore`, `Expr.settle_mentionsNoMore`, `Expr.place_mentionsNoMore`,
`Expr.markInlined_mentionsNoMore`: the passes add no calls and nothing that belongs to a circuit.
-/

namespace Shroud

/-! ## Mentions -/

theorem append_subset_append {α : Type} {ws xs ys zs : List α} (h : ws ⊆ ys) (h' : xs ⊆ zs) : ws ++ xs ⊆ ys ++ zs :=
  List.append_subset.mpr ⟨List.subset_append_of_subset_left _ h, List.subset_append_of_subset_right _ h'⟩

/-- What an expression mentions: what the name of a called function refers to, a circuit variable that is read by its name
or shown as a member, or something that merely helps to compute a value. -/
inductive Mentioned where
  | call (target : Option Ref)
  | read (v : CircuitVar)
  | shown (v : CircuitVar)
  | aid (e : Expr)

def Mentioned.call? : Mentioned → Option (Option Ref)
  | .call r => some r
  | _ => none

/-- The circuit variable that the name is, if it is one. -/
def Ident.mentions (as : CircuitVar → Mentioned) : Ident → List Mentioned
  | .plain _ => []
  | .circuit v => [as v]

namespace Expr

/-- What the name of the called function refers to, if the expression calls a function. -/
def ownCall? (e : Expr) : Option (Option Ref) := (Node.expr e).callee?.map Expr.target?

/-- What the expression mentions itself, apart from its parts. -/
def ownMentions : Expr → List Mentioned
  | .call i f as o k => ((Expr.call i f as o k).ownCall?.map .call).toList ++ k.toList.map (.aid ·.read)
  | .operator _ _ _ _ r => r.toList.map .aid
  | .ident _ n _ => n.mentions .read
  | .member _ _ n _ => n.mentions .shown
  | _ => []

def mentions (e : Expr) : List Mentioned := e.subexprs.flatMap ownMentions

def mentionsAll (es : List Expr) : List Mentioned := (Expr.subexprsAll es).flatMap ownMentions

/-- What is called in the expression. -/
def called (e : Expr) : List (Option Ref) := e.mentions.filterMap Mentioned.call?

def calledAll (es : List Expr) : List (Option Ref) := (mentionsAll es).filterMap Mentioned.call?

section Forms

variable {i j : Info} {e e' f g k p : Expr} {as bs : List Expr} {o n : Int} {key key' : Option CircuitVar} {t : AnnTy}

theorem mentions_call : (Expr.call i f as o key).mentions =
    (Expr.call i f as o key).ownMentions ++ f.mentions ++ mentionsAll as := by
  unfold mentions mentionsAll
  rw [subexprs, List.cons_append, List.flatMap_cons, List.flatMap_append, List.append_assoc]

theorem mentions_member {m : Ident} {r : Option Ref} : (Expr.member i e m r).mentions = m.mentions .shown ++ e.mentions :=
  List.flatMap_cons

theorem mentions_index {r : Option Ref} : (Expr.index i e k r).mentions = e.mentions ++ k.mentions :=
  List.flatMap_append

theorem mentions_reclassify {m : ReclassifyForm} {h : Option Hom} :
    (Expr.reclassify i m e p h).mentions = e.mentions ++ p.mentions :=
  List.flatMap_append

theorem mentionsAll_cons : mentionsAll (e :: as) = e.mentions ++ mentionsAll as := List.flatMap_append

theorem mentionsAll_append : mentionsAll (as ++ bs) = mentionsAll as ++ mentionsAll bs := by
  induction as with
  | nil => rfl
  | cons a as ih => rw [List.cons_append, mentionsAll_cons, mentionsAll_cons, ih, List.append_assoc]

theorem ownMentions_withType : (e.withType t).ownMentions = e.ownMentions := by
  cases e with
  | call i f => cases f <;> rfl
  | _ => rfl

theorem mentions_withType : (e.withType t).mentions = e.mentions := by
  have own := e.ownMentions_withType (t := t)
  unfold mentions
  rw [subexprs_withType, List.flatMap_cons, own]
  cases e <;> rfl

theorem mentions_ofLabel (l : Label) : (Expr.ofLabel l).mentions = [] := by
  cases l <;> rfl

theorem ownMentions_calls : (ownMentions e).filterMap Mentioned.call? = e.ownCall?.toList := by
  have none (n : Ident) (as : CircuitVar → Mentioned) (h : ∀ v, (as v).call? = .none) :
      (n.mentions as).filterMap Mentioned.call? = [] := by
    cases n with
    | plain => rfl
    | circuit v => simp [Ident.mentions, h]
  cases e with
  | call i f as o k =>
    unfold ownMentions
    rw [List.filterMap_append]
    cases (Expr.call i f as o k).ownCall? <;> cases k <;> rfl
  | operator i o p h r => cases r <;> rfl
  | ident i n r => exact none n _ fun _ => rfl
  | member i e n r => exact none n _ fun _ => rfl
  | _ => rfl

theorem mem_called {r : Option Ref} : r ∈ e.called ↔ ∃ x ∈ e.subexprs, x.ownCall? = some r := by
  unfold called mentions
  rw [List.filterMap_flatMap, List.mem_flatMap]
  refine exists_congr fun x => and_congr_right fun _ => ?_
  rw [ownMentions_calls, Option.mem_toList]

/-- Expressions without parts call nothing. -/
theorem called_leaf (h : e.isLeaf = true) : e.called = [] := by
  have own : e.mentions = e.ownMentions := by
    cases e with
    | operator | boolLit | numLit | ident | me | all => exact List.append_nil _
    | _ => cases h
  unfold called
  rw [own, ownMentions_calls]
  cases e with
  | operator | boolLit | numLit | ident | me | all => rfl
  | _ => cases h

theorem called_call : (Expr.call i f as o key).called =
    (Expr.call i f as o key).ownCall?.toList ++ f.called ++ calledAll as := by
  unfold called calledAll
  rw [mentions_call, List.filterMap_append, List.filterMap_append, ownMentions_calls]

theorem called_member {m : Ident} {r : Option Ref} : (Expr.member i e m r).called = e.called := by
  have own : (m.mentions .shown).filterMap Mentioned.call? = [] := ownMentions_calls (e := .member i e m r)
  unfold called
  rw [mentions_member, List.filterMap_append, own, List.nil_append]

theorem called_index {r : Option Ref} : (Expr.index i e k r).called = e.called ++ k.called := by
  unfold called
  rw [mentions_index, List.filterMap_append]

theorem called_reclassify {m : ReclassifyForm} {h : Option Hom} :
    (Expr.reclassify i m e p h).called = e.called ++ p.called := by
  unfold called
  rw [mentions_reclassify, List.filterMap_append]

theorem calledAll_cons : calledAll (e :: as) = e.called ++ calledAll as := by
  unfold called calledAll
  rw [mentionsAll_cons, List.filterMap_append]

end Forms

/-- The second expression mentions nothing that the first one does not mention, and as a function it is the same. -/
structure MentionsNoMore (e e' : Expr) : Prop where
  mentions : e'.mentions ⊆ e.mentions
  isOperator : e'.op?.isSome = e.op?.isSome
  isLocation : e'.isLocation = e.isLocation
  target? : e'.target? = e.target?

namespace MentionsNoMore

variable {i j : Info} {e e' f g x : Expr} {as bs : List Expr} {o n : Int} {key key' : Option CircuitVar} {t : AnnTy}

theorem refl (e : Expr) : e.MentionsNoMore e := ⟨List.Subset.refl _, rfl, rfl, rfl⟩

theorem trans (h : e.MentionsNoMore f) (h' : f.MentionsNoMore g) : e.MentionsNoMore g :=
  ⟨List.Subset.trans h'.mentions h.mentions, h'.isOperator.trans h.isOperator, h'.isLocation.trans h.isLocation,
    h'.target?.trans h.target?⟩

theorem called (h : e.MentionsNoMore e') : e'.called ⊆ e.called := List.filterMap_subset _ h.mentions

theorem withType (e : Expr) (t : AnnTy) : e.MentionsNoMore (e.withType t) := by
  refine ⟨(List.Perm.of_eq mentions_withType).subset, ?_, ?_, ?_⟩ <;> cases e <;> rfl

theorem ownCall? (h : f.MentionsNoMore g) : (Expr.call j g bs n key').ownCall? = (Expr.call i f as o key).ownCall? := by
  have cast : (Expr.call j g bs n key').isCastCall = (Expr.call i f as o key).isCastCall := by
    simp only [isCastCall, h.isLocation, h.target?]
  have unfolded (i : Info) (f : Expr) (as : List Expr) (o : Int) (key : Option CircuitVar) :
      (Expr.call i f as o key).ownCall? = if f.op?.isSome then none
        else if (Expr.call i f as o key).isCastCall then none else some f.target? := by
    unfold Expr.ownCall? Node.callee?
    dsimp only
    cases f with
    | operator => rfl
    | _ => cases (Expr.call i _ as o key).isCastCall <;> rfl
  rw [unfolded, unfolded, cast, h.isOperator, h.target?]

theorem call (func : f.MentionsNoMore g) (args : mentionsAll bs ⊆ mentionsAll as) :
    (Expr.call i f as o key).MentionsNoMore (.call j g bs n key) := by
  have own : (Expr.call j g bs n key).ownMentions = (Expr.call i f as o key).ownMentions := by
    unfold ownMentions
    dsimp only
    rw [func.ownCall?]
  refine ⟨?_, rfl, rfl, rfl⟩
  rw [mentions_call, mentions_call, own]
  exact append_subset_append (append_subset_append (List.Subset.refl _) func.mentions) args

/-- Expressions other than calls. -/
theorem other (h : e'.mentions ⊆ e.mentions) (op : e.op? = none) (op' : e'.op? = none)
    (location : e'.isLocation = e.isLocation) (target : e'.target? = e.target?) : e.MentionsNoMore e' :=
  ⟨h, by rw [op, op'], location, target⟩

theorem new (h : mentionsAll bs ⊆ mentionsAll as) : (Expr.new i as).MentionsNoMore (.new j bs) := .other h rfl rfl rfl rfl

theorem arrayLit {b : Bool} (h : mentionsAll bs ⊆ mentionsAll as) : (Expr.arrayLit i as b).MentionsNoMore (.arrayLit j bs b) :=
  .other h rfl rfl rfl rfl

theorem tuple (h : mentionsAll bs ⊆ mentionsAll as) : (Expr.tuple i as).MentionsNoMore (.tuple j bs) :=
  .other h rfl rfl rfl rfl

theorem cast {u v : Ty} {b : Bool} (h : e.MentionsNoMore e') : (Expr.cast i u e b).MentionsNoMore (.cast j v e' b) :=
  .other h.mentions rfl rfl rfl rfl

theorem member {m : Ident} {r : Option Ref} (h : e.MentionsNoMore e') :
    (Expr.member i e m r).MentionsNoMore (.member j e' m r) := by
  refine .other ?_ rfl rfl rfl rfl
  rw [mentions_member, mentions_member]
  exact append_subset_append (List.Subset.refl _) h.mentions

theorem index {r : Option Ref} (h : e.MentionsNoMore e') (h' : f.MentionsNoMore g) :
    (Expr.index i e f r).MentionsNoMore (.index j e' g r) := by
  refine .other ?_ rfl rfl rfl rfl
  rw [mentions_index, mentions_index]
  exact append_subset_append h.mentions h'.mentions

theorem reclassify {m : ReclassifyForm} {q q' : Option Hom} (h : e.MentionsNoMore e') (h' : f.MentionsNoMore g) :
    (Expr.reclassify i m e f q).MentionsNoMore (.reclassify j m e' g q') := by
  refine .other ?_ rfl rfl rfl rfl
  rw [mentions_reclassify, mentions_reclassify]
  exact append_subset_append h.mentions h'.mentions

end MentionsNoMore

/-! ## Conversions -/

section Conversions

variable {k : Option Knowledge} {expected : AnnTy} {e x : Expr} {u : Ty} {site : Site} {spot : Spot}

theorem IsCast.mentions (h : IsCast u e x) : x.mentions = e.mentions := by
  induction h with
  | around => rfl
  | inside _ _ ih => rw [mentions_reclassify, mentions_reclassify, ih]

theorem reclassifyTo_mentions {p : Expr} {hom : Hom} (h : e.reclassifyTo p hom = .ok x) : x.mentions = e.mentions := by
  obtain ⟨l, -, -, rfl⟩ := reclassifyTo_ok h
  rw [mentions_reclassify, mentions_ofLabel, List.append_nil]

theorem rehomTo_mentions (h : e.rehomTo k expected = .ok x) : x.mentions = e.mentions := by
  obtain ⟨l, -, -, rfl⟩ := rehomTo_ok h
  exact mentions_reclassify.trans (List.append_nil _)

theorem retyped_mentions (x : Expr) (g : Hom) : (x.retyped g).mentions = x.mentions := mentions_withType

theorem ChangesHom.mentions (h : ChangesHom k expected e x) : x.mentions = e.mentions := by
  induction h with
  | again _ _ rehom => exact rehomTo_mentions rehom
  | handed => exact retyped_mentions _ _
  | cast _ _ _ ih => exact (retyped_mentions _ _).trans ih
  | choice _ _ _ _ first second =>
    rw [retyped_mentions, mentions_call, mentions_call, mentionsAll_cons, mentionsAll_cons, mentionsAll_cons,
      mentionsAll_cons, mentionsAll_cons, mentionsAll_cons, first, second]
    rfl

theorem coercePlain_mentions {t : AnnTy} (h : (e.coercePlain k spot t).result = .ok x) : x.mentions = e.mentions := by
  obtain ⟨_, _, y, -, -, cast, steps⟩ := coercePlain_steps h
  have cast : y.mentions = e.mentions := by
    obtain ⟨-, rfl⟩ | ⟨-, cast⟩ := castStep_cases cast
    · rfl
    · exact cast.mentions
  obtain ⟨-, encrypt⟩ | ⟨-, -, rfl⟩ | ⟨-, -, change⟩ := steps
  · exact (reclassifyTo_mentions encrypt).trans cast
  · exact cast
  · exact change.mentions.trans cast

mutual

theorem Converted.mentions : ∀ {e x : Expr} {t : AnnTy}, Converted k e t x → x.mentions ⊆ e.mentions
  | _, _, _, .steps h => (List.Perm.of_eq (coercePlain_mentions h)).subset
  | _, _, _, .parts _ _ each => each.mentions

theorem AllConverted.mentions : ∀ {es xs : List Expr} {ts : List AnnTy}, AllConverted k es ts xs →
    mentionsAll xs ⊆ mentionsAll es
  | _, _, _, .noValues | _, _, _, .noTypes => List.nil_subset _
  | _, _, _, .cons first rest => by
    rw [mentionsAll_cons, mentionsAll_cons]
    exact append_subset_append first.mentions rest.mentions

end

/-- A converted value mentions what the value mentions. -/
theorem coerce_mentions {s : Symbols} {nested : Bool} (h : (e.coerce s k spot nested expected).result = .ok x) :
    x.mentions ⊆ e.mentions := (converted_of_coerce h).mentions

theorem coerceAll_mentions {s : Symbols} {spot : List Expr → Site} {ds es xs : List Expr} {ts : List AnnTy}
    (h : (Expr.coerceAll s k spot ds es ts).2 = .ok xs) : mentionsAll xs ⊆ mentionsAll es :=
  (allConverted_of_coerceAll h).mentions

end Conversions

end Expr

/-! ## Checked expressions -/

section Checking

open Shroud.Expr

variable {c : CheckContext} {i : Info} {e f p key : Expr} {as : List Expr} {r : Option Ref}

namespace OpCall

variable {o : OpCall}

theorem ends_coerceAll_mentions {ts : List AnnTy} {next : OpCall → CheckM Expr} {P : Expr → Prop}
    (h : ∀ as, mentionsAll as ⊆ mentionsAll o.args → Ends P (next (o.withArgs as))) : Ends P (o.coerceAll c ts next) :=
  .withSymbols fun _ => .convertAll fun as has => h as (coerceAll_mentions has)

theorem mentionsAll_set {n : Nat} {a x : Expr} (ha : as[n]? = some a) (h : x.mentions ⊆ a.mentions) :
    mentionsAll (as.set n x) ⊆ mentionsAll as := by
  induction as generalizing n with
  | nil => exact List.nil_subset _
  | cons b as ih =>
    cases n with
    | zero =>
      cases ha
      rw [List.set_cons_zero, mentionsAll_cons, mentionsAll_cons]
      exact append_subset_append h (List.Subset.refl _)
    | succ n =>
      rw [List.set_cons_succ, mentionsAll_cons, mentionsAll_cons]
      exact append_subset_append (List.Subset.refl _) (ih ha)

theorem ends_coerceAt_mentions {n : Nat} {t : AnnTy} {next : OpCall → CheckM Expr} {P : Expr → Prop}
    (h : ∀ as, mentionsAll as ⊆ mentionsAll o.args → Ends P (next (o.withArgs as))) : Ends P (o.coerceAt c n t next) := by
  refine .withSymbols fun s => ?_
  cases ha : o.args[n]? with
  | none => exact .fail
  | some a => exact .convert fun x hx => h _ (mentionsAll_set ha (coerce_mentions hx))

/-- What an operator mentions itself. It calls nothing. -/
def aids (o : OpCall) : List Mentioned := o.key.toList.map (.aid ·.read) ++ o.rerandomize.toList.map .aid

theorem mentions_expr : o.expr.mentions = o.aids ++ mentionsAll o.args := by
  have func : o.func.mentions = o.rerandomize.toList.map .aid := List.append_nil _
  unfold aids
  rw [← func]
  exact mentions_call

/-- An operator that is applied to operands mentions no more than these. -/
theorem mentionsNoMore {o' : OpCall} (aids : o'.aids = o.aids) (args : mentionsAll o'.args ⊆ mentionsAll o.args) :
    o.expr.MentionsNoMore o'.expr := by
  refine ⟨?_, rfl, rfl, rfl⟩
  rw [mentions_expr, mentions_expr, aids]
  exact append_subset_append (List.Subset.refl _) args

theorem mentionsNoMore_typed {o' : OpCall} {t : AnnTy} (aids : o'.aids = o.aids)
    (args : mentionsAll o'.args ⊆ mentionsAll o.args) : o.expr.MentionsNoMore (o'.typed t) :=
  (mentionsNoMore aids args).trans (.withType _ t)

theorem typePlain_mentionsNoMore : Ends o.expr.MentionsNoMore (o.typePlain c) := by
  have finish (o' : OpCall) (aids : o'.aids = o.aids) (same : o'.args = o.args) (operands : Combined) (result : Ty)
      (isPrivate : Bool) : Ends o.expr.MentionsNoMore (typePlain.finish c o' operands result isPrivate) := by
    unfold typePlain.finish
    dsimp only
    split
    · split
      · exact ends_coerceAt_mentions fun _ h => .pure (mentionsNoMore_typed aids (same ▸ h))
      · exact ends_coerceAll_mentions fun _ h => .pure (mentionsNoMore_typed aids (same ▸ h))
    · exact .pure (mentionsNoMore_typed aids (same ▸ List.Subset.refl _))
  refine .attempt fun _ _ => .attempt fun r _ => ?_
  obtain ⟨operands, result⟩ := r
  dsimp only
  split
  · exact .fail
  · exact .fail
  · split
    · refine .attempt fun _ _ => ?_
      split
      · exact Ends.warn.bind fun _ => (finish { o with isPrivate := true } rfl rfl _ _ _).imp fun _ h _ => h
      · exact finish { o with isPrivate := true } rfl rfl _ _ _
    · exact finish o rfl rfl _ _ _

theorem typeChoice_mentionsNoMore : Ends o.expr.MentionsNoMore (o.typeChoice c) := by
  have finish (o' : OpCall) (aids : o'.aids = o.aids) (same : o'.args = o.args) (t : AnnTy) :
      Ends o.expr.MentionsNoMore (typeChoice.finish c o' t) :=
    ends_coerceAt_mentions fun _ h => ends_coerceAt_mentions fun _ h' =>
      .pure (mentionsNoMore_typed aids (List.Subset.trans h' (same ▸ h)))
  unfold typeChoice
  split
  · refine .ensure fun _ => .attempt fun common _ => ?_
    split
    · split
      · exact finish { o with isPrivate := true } rfl rfl _
      · refine .attempt fun owner _ => ?_
        split
        · exact .fail
        · exact finish o rfl rfl _
        · exact .fail
    · exact .fail
  · exact .fail
  · exact .fail

theorem typeHomomorphic_mentionsNoMore : Ends o.expr.MentionsNoMore (o.typeHomomorphic c) := by
  refine .attempt fun _ _ => .attempt fun h _ => ?_
  cases h with
  | none => exact .fail
  | some h => exact ends_coerceAll_mentions fun _ args => .pure (mentionsNoMore rfl args)

theorem type_mentionsNoMore : Ends o.expr.MentionsNoMore (o.type c) := by
  unfold type
  split
  · exact .pure (mentionsNoMore_typed rfl (List.Subset.refl _))
  · split
    · exact typeHomomorphic_mentionsNoMore
    · split
      · exact typeChoice_mentionsNoMore
      · exact typePlain_mentionsNoMore

end OpCall

theorem typeCall_mentionsNoMore {o : Int} {key : Option CircuitVar} :
    Ends (Expr.call i f as o key).MentionsNoMore (typeCall c i f as o key) := by
  unfold typeCall
  dsimp only
  split
  · exact OpCall.type_mentionsNoMore
  · refine .withSymbols fun s => ?_
    split
    · split
      · split
        · exact .fail
        · exact .attempt fun _ _ => .pure (.withType _ _)
      · exact .fail
      · exact .fail
    · split
      · split
        · exact .ensure fun _ => .convertAll fun xs hxs =>
            .pure ((MentionsNoMore.call (.refl _) (coerceAll_mentions hxs)).trans (.withType _ _))
        · exact .fail
      · exact .fail

theorem typeIdent_mentionsNoMore : Ends e.MentionsNoMore (typeIdent c e) := by
  unfold typeIdent
  split
  · exact .pure (.refl _)
  · exact .fail
  · refine .withSymbols fun s => ?_
    split
    · exact .pure (.withType _ _)
    · exact .fail
  · exact .fail

theorem typeMember_mentionsNoMore {name : String} : Ends e.MentionsNoMore (typeMember c e p name) := by
  unfold typeMember
  split
  · exact .fail
  · refine .ensure fun _ => .withSymbols fun s => ?_
    split
    · exact .pure (.withType _ _)
    · exact .fail

theorem typeIndex_mentionsNoMore : Ends (Expr.index i e key r).MentionsNoMore (typeIndex c i e key r) := by
  have owner (t : AnnTy) : (Expr.index i e key r).MentionsNoMore (.index i (e.withType t) key r) := by
    refine .other ?_ rfl rfl rfl rfl
    rw [mentions_index, mentions_index, mentions_withType]
    exact List.Subset.refl _
  refine .ensure fun _ => ?_
  split
  · refine .attempt fun _ _ => .ensure fun _ => ?_
    split
    · exact .pure (.withType _ _)
    · split
      · exact .fail
      · exact .pure ((owner _).trans (.withType _ _))
  · split
    · exact .ensure fun _ => .ensure fun _ => .pure (.withType _ _)
    · exact .fail

theorem typeReclassify_mentionsNoMore {m : ReclassifyForm} {h : Option Hom} :
    Ends (Expr.reclassify i m e p h).MentionsNoMore (typeReclassify c i m e p h) := by
  have hom (g : Option Hom) : (Expr.reclassify i m e p h).MentionsNoMore (.reclassify i m e p g) :=
    .other (List.Subset.refl _) rfl rfl rfl rfl
  unfold typeReclassify
  dsimp only
  split
  · exact .fail
  · exact .ensure fun _ => .ensure fun _ => .attempt fun _ _ => .ensure fun _ => .attempt fun _ _ =>
      .pure ((hom _).trans (.withType _ _))

theorem typeCast_mentionsNoMore {t : Ty} {b : Bool} : Ends (Expr.cast i t e b).MentionsNoMore (typeCast c i t e b) :=
  .attempt fun _ _ => .ensure fun _ => .attempt fun _ _ => .pure (.withType _ _)

mutual

/-- Checking an expression adds no mentions. -/
theorem Expr.check_mentionsNoMore (c : CheckContext) : ∀ e : Expr, Ends e.MentionsNoMore (e.check c)
  | .call _ f as _ _ => .unlessStopped <| (f.check_mentionsNoMore _).bind fun _ =>
    (Expr.checkAll_mentions c.knowledge _ [] as).bind fun _ =>
      (Ends.unlessStopped typeCall_mentionsNoMore).imp fun _ last args func => (MentionsNoMore.call func args).trans last
  | .new i as => .unlessStopped <| (i.checkType_ends c.knowledge _).bind fun _ =>
    (Expr.checkAll_mentions c.knowledge _ [] as).bind fun _ => .pure fun args _ => .new args
  | .cast _ t e _ => .unlessStopped <| (t.check_ends c.knowledge _).bind fun _ => (e.check_mentionsNoMore _).bind fun _ =>
    (Ends.unlessStopped typeCast_mentionsNoMore).imp fun _ last value _ => (MentionsNoMore.cast value).trans last
  | .arrayLit _ vs _ => (Expr.checkAll_mentions c.knowledge _ [] vs).bind fun _ => .pure .arrayLit
  | .tuple i es => (Expr.checkAll_mentions c.knowledge _ [] es).bind fun es' =>
    (Ends.unlessStopped (P := (Expr.tuple i es').MentionsNoMore) (.pure (.withType _ _))).imp fun _ last parts =>
      (MentionsNoMore.tuple parts).trans last
  | .ident _ _ _ => .unlessStopped typeIdent_mentionsNoMore
  | .member _ e _ _ => (e.check_mentionsNoMore _).bind fun _ => (Ends.unlessStopped typeMember_mentionsNoMore).imp
    fun _ last base => (MentionsNoMore.member base).trans last
  | .index _ e k _ => (e.check_mentionsNoMore _).bind fun _ => (k.check_mentionsNoMore _).bind fun _ =>
    (Ends.unlessStopped typeIndex_mentionsNoMore).imp fun _ last key base => (MentionsNoMore.index base key).trans last
  | .reclassify _ _ e p _ => (e.check_mentionsNoMore _).bind fun _ => (p.check_mentionsNoMore _).bind fun _ =>
    (Ends.unlessStopped typeReclassify_mentionsNoMore).imp fun _ last owner value =>
      (MentionsNoMore.reclassify value owner).trans last
  | .me _ => .unlessStopped (.pure (.withType _ _))
  | .operator .. | .boolLit .. | .numLit .. | .all _ => .pure (.refl _)

theorem Expr.checkAll_mentions (k : Option Knowledge) (spot : List Expr → Site) : ∀ ds es : List Expr,
    Ends (fun es' => mentionsAll es' ⊆ mentionsAll (ds ++ es)) (Expr.checkAll k spot ds es)
  | ds, [] => .pure (by rw [List.append_nil]; exact List.Subset.refl _)
  | ds, e :: es => (e.check_mentionsNoMore _).bind fun e' => (Expr.checkAll_mentions k spot _ es).imp fun _ h first => by
    refine List.Subset.trans h ?_
    rw [mentionsAll_append, mentionsAll_append, mentionsAll_append, mentionsAll_cons, mentionsAll_cons, List.append_assoc]
    exact append_subset_append (List.Subset.refl _) (append_subset_append
      (List.append_subset.mpr ⟨first.mentions, List.nil_subset _⟩) (List.Subset.refl _))

end

end Checking

/-! ## Settled and placed expressions -/

section Passes

open Shroud.Expr CheckM

theorem Expr.settle_mentionsNoMore (s : Symbols) (e : Expr) : e.MentionsNoMore (e.settle s) := by
  have all {as : List Expr} (ih : ∀ a ∈ as, a.MentionsNoMore (a.settle s)) :
      mentionsAll (as.map (settle s)) ⊆ mentionsAll as := by
    induction as with
    | nil => exact List.nil_subset _
    | cons a as has =>
      rw [List.map_cons, mentionsAll_cons, mentionsAll_cons]
      exact append_subset_append (ih a List.mem_cons_self).mentions (has fun b hb => ih b (List.mem_cons_of_mem _ hb))
  induction e using Expr.inductOn with
  | call i f as o k hf has =>
    obtain ⟨j, hj⟩ := settleNode_call s i (f.settle s) (as.map (settle s)) o k
    rw [settle_call, hj]
    exact .call hf (all has)
  | new i as has =>
    have settled : (Expr.new i as).settle s = .new i (as.map (settle s)) := by
      rw [← settle_all]
      rfl
    rw [settled]
    exact .new (all has)
  | arrayLit i es b hes =>
    have settled : (Expr.arrayLit i es b).settle s = .arrayLit i (es.map (settle s)) b := by
      rw [← settle_all]
      rfl
    rw [settled]
    exact .arrayLit (all hes)
  | tuple i es hes =>
    have settled : (Expr.tuple i es).settle s = .tuple i (es.map (settle s)) := by
      rw [← settle_all]
      rfl
    rw [settled]
    exact .tuple (all hes)
  | cast i u e b he => exact .cast he
  | member i e n r he => exact .member he
  | index i e k r he hk => exact .index he hk
  | reclassify i m e p h he hp => exact .reclassify he hp
  | leaf e hl =>
    cases e with
    | operator | boolLit | numLit | ident | me | all => exact .refl _
    | _ => cases hl

mutual

theorem Expr.marked_mentionsNoMore (b : Bool) : ∀ e : Expr, e.MentionsNoMore (e.marked b)
  | .call _ f as _ _ => .call (f.marked_mentionsNoMore b) (Expr.allMarked_mentions b as)
  | .new _ as => .new (Expr.allMarked_mentions b as)
  | .cast _ _ e _ => .cast (e.marked_mentionsNoMore b)
  | .arrayLit _ vs _ => .arrayLit (Expr.allMarked_mentions b vs)
  | .tuple _ es => .tuple (Expr.allMarked_mentions b es)
  | .member _ e _ _ => .member (e.marked_mentionsNoMore b)
  | .index _ e k _ => .index (e.marked_mentionsNoMore b) (k.marked_mentionsNoMore b)
  | .reclassify _ _ e p _ => .reclassify (e.marked_mentionsNoMore b) (p.marked_mentionsNoMore b)
  | .operator .. | .boolLit .. | .numLit .. | .ident .. | .me _ | .all _ =>
    ⟨List.Subset.refl _, rfl, rfl, rfl⟩

theorem Expr.allMarked_mentions (b : Bool) : ∀ es : List Expr,
    mentionsAll (Id.run (Expr.bottomUpAll (fun x => pure (x.mapInfo fun i => { i with privately := b })) es)) ⊆ mentionsAll es
  | [] => List.nil_subset _
  | e :: es => by
    show mentionsAll (e.marked b :: _) ⊆ _
    rw [mentionsAll_cons, mentionsAll_cons]
    exact append_subset_append (e.marked_mentionsNoMore b).mentions (Expr.allMarked_mentions b es)

end

mutual

theorem Expr.moveIn_mentionsNoMore (site : Site) : ∀ e : Expr, Always e.MentionsNoMore (e.moveIn site)
  | .call i f as o k => by
    refine always_unlessStopped (.refl _) (.after fun s => ?_)
    split
    · exact always_fail (.refl _)
    · exact (f.moveIn_mentionsNoMore site).bind fun _ func => (Expr.moveAllIn_mentions site as).bind fun _ args =>
        .pure (.call func args)
  | .new _ as => always_unlessStopped (.refl _) <| .after fun _ => (Expr.moveAllIn_mentions site as).bind fun _ args =>
    .pure (.new args)
  | .cast _ _ e _ => always_unlessStopped (.refl _) <| .after fun _ => (e.moveIn_mentionsNoMore site).bind fun _ value =>
    .pure (.cast value)
  | .arrayLit _ vs _ => always_unlessStopped (.refl _) <| (Expr.moveAllIn_mentions site vs).bind fun _ values =>
    .pure (.arrayLit values)
  | .tuple _ es => always_unlessStopped (.refl _) <| (Expr.moveAllIn_mentions site es).bind fun _ parts =>
    .pure (.tuple parts)
  | .member _ e _ _ => always_unlessStopped (.refl _) <| (e.moveIn_mentionsNoMore site).bind fun _ base =>
    .pure (.member base)
  | .index _ e k _ => always_unlessStopped (.refl _) <| (e.moveIn_mentionsNoMore site).bind fun _ base =>
    (k.moveIn_mentionsNoMore site).bind fun _ key => .pure (.index base key)
  | .reclassify _ _ e p _ => always_unlessStopped (.refl _) <| (e.moveIn_mentionsNoMore site).bind fun _ value =>
    (p.moveIn_mentionsNoMore site).bind fun _ owner => .pure (.reclassify value owner)
  | .operator .. | .boolLit .. | .numLit .. | .ident .. | .me _ | .all _ =>
    always_unlessStopped (.refl _) (.pure ⟨List.Subset.refl _, rfl, rfl, rfl⟩)

theorem Expr.moveAllIn_mentions (site : Site) : ∀ es : List Expr,
    Always (fun es' => mentionsAll es' ⊆ mentionsAll es) (Expr.moveAllIn site es)
  | [] => .pure (List.Subset.refl _)
  | e :: es => (e.moveIn_mentionsNoMore site).bind fun _ first =>
      (Expr.moveAllIn_mentions site es).bind fun _ rest => .pure (by
    rw [mentionsAll_cons, mentionsAll_cons]
    exact append_subset_append first.mentions rest)

end

theorem placing_mentionsNoMore {c : PlaceContext} {cur force : Bool} {e : Expr} {next : Bool → CheckM Expr}
    (h : ∀ cur, Always e.MentionsNoMore (next cur)) : Always e.MentionsNoMore (placing c cur force e next) :=
  always_placing (e.marked_mentionsNoMore cur)
    (fun s => (e.marked_mentionsNoMore cur).trans ((e.marked cur).moveIn_mentionsNoMore c.site s)) h

mutual

/-- Placing an expression adds no mentions. -/
theorem Expr.place_mentionsNoMore (c : PlaceContext) : ∀ (cur : Bool) (e : Expr), Always e.MentionsNoMore (e.place c cur)
  | cur, .call i f as o k => by
    rw [Expr.place_call]
    exact placing_mentionsNoMore fun cur => (f.place_mentionsNoMore c cur).bind fun _ func =>
      (Expr.placeAll_mentions c cur as).bind fun _ args => .pure (.call func args)
  | _, .new _ as => placing_mentionsNoMore fun cur => .after fun _ => (Expr.placeAll_mentions c cur as).bind fun _ args =>
    .pure (.new args)
  | _, .cast _ _ e _ => placing_mentionsNoMore fun cur => .after fun _ => (e.place_mentionsNoMore c cur).bind fun _ value =>
    .pure (.cast value)
  | _, .arrayLit _ vs _ => placing_mentionsNoMore fun cur => (Expr.placeAll_mentions c cur vs).bind fun _ values =>
    .pure (.arrayLit values)
  | _, .tuple _ es => placing_mentionsNoMore fun cur => (Expr.placeAll_mentions c cur es).bind fun _ parts =>
    .pure (.tuple parts)
  | _, .member _ e _ _ => placing_mentionsNoMore fun cur => (e.place_mentionsNoMore c cur).bind fun _ base =>
    .pure (.member base)
  | _, .index _ e k _ => placing_mentionsNoMore fun cur => (e.place_mentionsNoMore c cur).bind fun _ base =>
    (k.place_mentionsNoMore c false).bind fun _ key => .pure (.index base key)
  | cur, .reclassify i m e p h => by
    refine always_unlessStopped (marked_mentionsNoMore _ _) ?_
    split
    · exact always_fail (marked_mentionsNoMore _ _)
    · split
      · exact placing_mentionsNoMore fun _ => (e.place_mentionsNoMore c true).bind fun _ value =>
          .pure (.reclassify value (p.marked_mentionsNoMore _))
      · exact .after fun s => (e.place_mentionsNoMore c _).bind fun _ value =>
          .pure (.reclassify value (p.marked_mentionsNoMore _))
  | _, .operator .. | _, .boolLit .. | _, .numLit .. | _, .ident .. | _, .me _ | _, .all _ =>
    .pure ⟨List.Subset.refl _, rfl, rfl, rfl⟩

theorem Expr.placeAll_mentions (c : PlaceContext) (cur : Bool) : ∀ es : List Expr,
    Always (fun es' => mentionsAll es' ⊆ mentionsAll es) (Expr.placeAll c cur es)
  | [] => .pure (List.Subset.refl _)
  | e :: es => (e.place_mentionsNoMore c cur).bind fun _ first =>
      (Expr.placeAll_mentions c cur es).bind fun _ rest => .pure (by
    rw [mentionsAll_cons, mentionsAll_cons]
    exact append_subset_append first.mentions rest)

end

mutual

theorem Expr.markInlined_mentionsNoMore (s : Symbols) : ∀ e : Expr, e.MentionsNoMore (e.markInlined s)
  | .call _ f as _ _ => .call (f.markInlined_mentionsNoMore s) (Expr.allInlined_mentions s as)
  | .new _ as => .new (Expr.allInlined_mentions s as)
  | .cast _ _ e _ => .cast (e.markInlined_mentionsNoMore s)
  | .arrayLit _ vs _ => .arrayLit (Expr.allInlined_mentions s vs)
  | .tuple _ es => .tuple (Expr.allInlined_mentions s es)
  | .member _ e _ _ => .member (e.markInlined_mentionsNoMore s)
  | .index _ e k _ => .index (e.markInlined_mentionsNoMore s) (k.markInlined_mentionsNoMore s)
  | .reclassify _ _ e p _ => .reclassify (e.markInlined_mentionsNoMore s) (p.markInlined_mentionsNoMore s)
  | .operator .. | .boolLit .. | .numLit .. | .ident .. | .me _ | .all _ =>
    ⟨List.Subset.refl _, rfl, rfl, rfl⟩

theorem Expr.allInlined_mentions (s : Symbols) : ∀ es : List Expr, mentionsAll (Expr.markAllInlined s es) ⊆ mentionsAll es
  | [] => List.nil_subset _
  | e :: es => by
    rw [Expr.markAllInlined, mentionsAll_cons, mentionsAll_cons]
    exact append_subset_append (e.markInlined_mentionsNoMore s).mentions (Expr.allInlined_mentions s es)

end

end Passes

end Shroud
