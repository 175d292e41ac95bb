import Shroud.Proofs.Splitting

/-!
# Traces of expressions

Turning an expression into one over circuit variables and turning it into public code both have traces, and so
have the activities of every level of the splitter.
-/

namespace Shroud

open SplitM

namespace Splitter

variable {k : SplitContext} {D E : Set Asset} {t : Splitter}

/-! ## Expressions inside a circuit -/

theorem acts_privateIdent (ht : t.Sound k D) (hD : D ⊆ E) {e : Expr} (he : e.Draws (AtHand E)) {n : Ident} :
    Acts true k E (t.privateIdent e n) fun e F => e.Draws (AtHand F) := by
  cases n with
  | circuit v =>
    unfold privateIdent
    dsimp only
    split
    · exact acts_failed
    · exact .pure he
  | plain s =>
    unfold privateIdent
    dsimp only
    split
    · exact acts_failed
    · refine acts_known?.bind fun r F hF hr => ?_
      cases r with
      | some v => exact .pure (Expr.draws_mapInfo.mpr (CircuitVar.draws_read (hr v rfl)))
      | none => exact (acts_input ht (hD.trans hF) (he.up hF)).bind fun v _ _ hv => .pure (CircuitVar.draws_read hv)

/-- The value of an input as an expression. -/
theorem acts_inputRead (ht : t.Sound k D) (hD : D ⊆ E) {e : Expr} (he : e.Draws (AtHand E)) :
    Acts true k E (do return (← t.input e).read) fun e F => e.Draws (AtHand F) :=
  (acts_input ht hD he).bind fun _ _ _ hv => .pure (CircuitVar.draws_read hv)

theorem acts_privateReclassify (ht : t.Sound k D) (hD : D ⊆ E) {type : AnnTy} {arg : Expr}
    (he : arg.Draws (AtHand E)) : Acts true k E (t.privateReclassify type arg) fun e F => e.Draws (AtHand F) := by
  unfold privateReclassify
  split
  · dsimp only
    split
    · exact .throw
    · refine (acts_evaluate ht hD he).bind fun p F hF hp => ?_
      split
      · exact .pure (CircuitVar.draws_read hp.2)
      · exact .throw
  · split
    · exact ht.privately E hD arg he
    · split
      · exact .throw
      · exact acts_inputRead ht hD he

/-- Fresh randomness is at hand. -/
theorem acts_freshRandomness {inner : Bool} {h : Hom} :
    Acts inner k E (freshRandomness h) fun r F => AtHand F (.aid r) :=
  idle_backend.acts_then fun _ => obtains_freshSecret.acts.bind fun _ _ _ hv => .pure hv

/-- An operand and the randomness to hide it with. -/
def Operand (E : Set Asset) (p : Expr × Option Expr) : Prop := p.1.Draws (AtHand E) ∧ ∀ r ∈ p.2, AtHand E (.aid r)

theorem acts_homOperand {inner : Bool} {b : Backend} {type : AnnTy} {isProduct : Bool} {arg : Expr}
    (he : arg.Draws (AtHand E)) :
    Acts inner k E (homOperand b type isProduct arg) fun p F => Operand F p := by
  unfold homOperand
  split
  · exact acts_freshRandomness.bind fun r F hF hr => .pure ⟨Expr.Draws.up he.1 hF, by rintro _ ⟨⟩; exact hr⟩
  · split
    · exact (Acts.put (Q := fun e F => e.Draws (AtHand F)) (Expr.draws_withType.mpr he)).bind
        fun _ _ _ h => .pure ⟨h, nofun⟩
    · exact .pure ⟨he, nofun⟩

theorem acts_homOperation (ht : t.Sound k D) (hD : D ⊆ E) {i func : Info} {op : Op} {p : Bool} {h : Hom}
    {r : Option Expr} {args : List Expr} {offset : Int} (hr : ∀ e ∈ r, AtHand E (.aid e))
    (hargs : Expr.AllDraws (AtHand E) args) :
    Acts true k E (t.homOperation i func op p h r args offset) fun e F => e.Draws (AtHand F) := by
  unfold homOperation
  refine idle_backend.acts_then fun b => ?_
  dsimp only
  split
  · exact .throw
  · refine obtains_publicKey.acts.bind fun key F hF hkey => ?_
    have lasting : Lasting fun (p : Expr × Option Expr) F => Operand F p :=
      fun _ _ _ hE h => ⟨h.1.up hE, fun r hr => (h.2 r hr).mono hE⟩
    refine (Acts.mapM lasting fun a ha G hG =>
      acts_homOperand ((Expr.allDraws_iff.mp hargs a ha).up (hF.trans hG))).bind fun ops G hG hops => ?_
    refine idle_put.acts_then fun _ => ?_
    refine (Acts.mapM Expr.lasting_draws fun a ha H hH => ?_).bind fun es H hH hes => ?_
    · obtain ⟨p, hp, rfl⟩ := List.mem_map.mp ha
      exact ht.privately H (hD.trans (hF.trans (hG.trans hH))) _ (Expr.Draws.up (hops p hp).1 hH)
    · -- the randomness is that of the last operand which asks for some
      have random : ∀ e ∈ ((ops.filterMap (·.2)).getLast?).or r, AtHand H (.aid e) := by
        intro e he
        rcases Option.or_eq_some_iff.mp he with last | ⟨_, given⟩
        · obtain ⟨p, hp, he⟩ := List.mem_filterMap.mp (List.mem_of_getLast? last)
          exact ((hops p hp).2 e he).mono hH
        · exact (hr e given).mono (hF.trans (hG.trans hH))
      exact .put ⟨random, Expr.allDraws_iff.mpr hes, by rintro _ ⟨⟩; exact hkey.mono (hG.trans hH)⟩

theorem acts_privateCall (hk : k.Draws (AtHand D)) (ht : t.Sound k D) (hD : D ⊆ E) {e func : Expr} {args : List Expr}
    (hargs : Expr.AllDraws (AtHand E) args) :
    Acts true k E (t.privateCall e func args) fun e F => e.Draws (AtHand F) := by
  unfold privateCall
  refine idle_symbols.acts_then fun symbols => ?_
  split
  · exact .throw
  · split
    · exact acts_failed
    · refine idle_read.acts (Q := fun c _ => c = k) (fun _ _ _ h => (runs_read.mp h).1.symm) |>.bind ?_
      rintro _ F hF rfl
      split
      · rename_i f hf
        exact acts_inline ht (hD.trans hF) (hk f (List.mem_of_find?_eq_some hf))
          fun e he => (Expr.allDraws_iff.mp hargs e he).up hF
      · exact .throw

/-- Arguments that are translated one after the other. -/
theorem acts_args {f : Expr → SplitM Expr} (hf : ∀ E, D ⊆ E → ∀ e : Expr, e.Draws (AtHand E) →
    Acts true k E (f e) fun e F => e.Draws (AtHand F)) (hD : D ⊆ E) {es : List Expr}
    (hes : Expr.AllDraws (AtHand E) es) : Acts true k E (es.mapM f) fun es F => Expr.AllDraws (AtHand F) es :=
  (Acts.mapM Expr.lasting_draws fun a ha F hF => hf F (hD.trans hF) a
    ((Expr.allDraws_iff.mp hes a ha).up hF)).imp fun _ _ _ h => Expr.allDraws_iff.mpr h

theorem acts_privateStep (hk : k.Draws (AtHand D)) (ht : t.Sound k D) (hD : D ⊆ E) {e : Expr}
    (he : e.Draws (AtHand E)) : Acts true k E (t.privateStep e) fun e F => e.Draws (AtHand F) := by
  cases e with
  | ident i n r => exact acts_privateIdent ht hD he
  | index | member | me => exact acts_inputRead ht hD he
  | reclassify i m arg p h => exact acts_privateReclassify ht hD he.1
  | call i f args o key =>
    have same : Acts true k E (do put (.call i f (← args.mapM t.privately) o key)) fun e F => e.Draws (AtHand F) :=
      (acts_args ht.privately hD he.2.1).bind fun _ _ hF h =>
        .put ⟨Expr.Draws.up he.1 hF, h, fun v hv => (he.2.2 v hv).mono hF⟩
    unfold privateStep
    dsimp only
    split
    · exact .pure trivial
    · exact .pure trivial
    · split
      · split
        · exact same
        · exact acts_homOperation ht hD he.1 he.2.1
      · split
        · split
          · exact same
          · exact .throw
        · exact acts_privateCall hk ht hD he.2.1
  | tuple i es => exact (acts_args ht.privately hD he).bind fun _ _ _ h => .put h
  | cast i type arg b => exact (ht.privately E hD arg he).bind fun _ _ _ h => .put h
  | new i args => exact (acts_args ht.privately hD he).bind fun _ _ _ h => .put h
  | operator | boolLit | numLit | arrayLit | all => exact .pure he

/-! ## Expressions of public code -/

theorem guardValue_draws {Q : Asset → Prop} {guard : CircuitVar} {cond p : Expr} (hg : Q guard)
    (hc : cond.Draws Q) (h : guardValue guard cond = .ok p) : p.Draws Q := by
  unfold guardValue at h
  split at h
  · exact CircuitVar.location_draws hg h
  · cases h
    exact hc
  · exact CircuitVar.location_draws hg h

theorem acts_evaluateOwned (ht : t.Sound k D) (hD : D ⊆ E) {e : Expr} (he : e.Draws (AtHand E)) {h : Hom} :
    Acts true k E (t.evaluateOwned e h) fun e F => e.Draws (AtHand F) := by
  unfold evaluateOwned
  split
  · exact acts_evaluate ht hD he
  · exact .throw

theorem acts_guardedOperand (ht : t.Sound k D) (hD : D ⊆ E) {guard : CircuitVar} {cond e : Expr} {holds : Bool}
    (hg : AtHand E guard) (he : e.Draws (AtHand E)) :
    Acts true k E (t.guardedOperand guard cond holds e) fun e F => e.Draws (AtHand F) := by
  unfold guardedOperand
  refine idle_draft?.acts_then fun before => ?_
  refine ((ht.publicly E hD e he).guarded hg.mem).optional.bind fun value F _ hvalue => ?_
  refine idle_draft?.acts_then fun after => ?_
  dsimp only
  split
  · exact Idle.ofExcept.acts_then fun _ => idle_modifyDraft.acts_then fun _ => .pure hvalue
  · exact .pure hvalue

theorem acts_shortCircuit (ht : t.Sound k D) (hD : D ⊆ E) {i : Info} {f : Expr} {op : Op} {args : List Expr}
    {offset : Int} {key : Option CircuitVar} (hf : f.Draws (AtHand E)) (hargs : Expr.AllDraws (AtHand E) args)
    (hkey : ∀ v ∈ key, AtHand E (.aid v.read)) :
    Acts true k E (t.shortCircuit i f op args offset key) fun e F => e.Draws (AtHand F) := by
  have lasting : Lasting fun (es : List Expr) F => Expr.AllDraws (AtHand F) es :=
    fun es _ _ hE h => Expr.AllDraws.mono (fun _ => AtHand.mono hE) es h
  unfold shortCircuit
  split
  · exact .throw
  · rename_i cond rest
    refine (acts_input ht hD hargs.1).bind fun guard F hF hguard => ?_
    refine (Acts.ofExcept (Q := fun e F => e.Draws (AtHand F)) fun p hp =>
      guardValue_draws hguard (Expr.Draws.up hargs.1 hF) hp).bind fun first G hG hfirst => ?_
    have hD := hD.trans (hF.trans hG)
    have hrest := lasting rest E G (hF.trans hG) hargs.2
    dsimp only
    refine (Acts.foldlM (R := fun es F => Expr.AllDraws (AtHand F) es) (fun es p H hH hes => ?_)
      (b := first :: rest) ⟨hfirst, hrest⟩).bind fun es H hH hes => ?_
    · refine idle_put.acts_then fun _ => ?_
      split
      · exact .throw
      · rename_i e he
        have he : e.Draws (AtHand H) := Expr.allDraws_iff.mp hes e (List.mem_of_getElem? he)
        refine (acts_guardedOperand ht (hD.trans hH) (hguard.mono (hG.trans hH)) he).bind fun e I hI he => .pure ?_
        refine Expr.allDraws_iff.mpr fun a ha => ?_
        rcases List.mem_or_eq_of_mem_set ha with ha | rfl
        · exact (Expr.allDraws_iff.mp hes a ha).up hI
        · exact he
    · have hE := hF.trans (hG.trans hH)
      exact .put ⟨Expr.Draws.up hf hE, hes, fun v hv => (hkey v hv).mono hE⟩

theorem internalTarget_draws {Q : Asset → Prop} {f p : Expr} {g : FunctionDef} (hf : f.Draws Q)
    (h : internalTarget f g = .ok p) : p.Draws Q := by
  unfold internalTarget at h
  split at h
  · split at h
    · cases h
      trivial
    · cases h
  · cases h
    exact hf

theorem acts_publicCall (ht : t.Sound k D) (hD : D ⊆ E) {i : Info} {f : Expr} {args : List Expr} {offset : Int}
    {key : Option CircuitVar} (hf : f.Draws (AtHand E)) (hargs : Expr.AllDraws (AtHand E) args)
    (hkey : ∀ v ∈ key, AtHand E (.aid v.read)) :
    Acts true k E (t.publicCall i f args offset key) fun e F => e.Draws (AtHand F) := by
  unfold publicCall
  dsimp only
  split
  · exact acts_failed
  · refine (ht.publicly E hD f hf).bind fun f F hF hf => idle_put.acts_then fun _ => ?_
    refine (acts_args ht.publicly (hD.trans hF)
      (Expr.AllDraws.mono (fun _ => AtHand.mono hF) args hargs)).bind fun args G hG hargs => ?_
    refine idle_symbols.acts_then fun symbols => ?_
    split
    · exact .throw
    · refine (Acts.ofExcept (Q := fun e F => e.Draws (AtHand F)) fun p hp =>
        internalTarget_draws (Expr.Draws.up hf hG) hp).bind fun f H hH hf => ?_
      have hargs := Expr.AllDraws.mono (fun _ => AtHand.mono hH) args hargs
      have last (I : Set Asset) (hI : H ⊆ I) :
          Acts true k I (put (.call i f args offset key)) fun e F => e.Draws (AtHand F) :=
        .put ⟨Expr.Draws.up hf hI, Expr.AllDraws.mono (fun _ => AtHand.mono hI) args hargs,
          fun v hv => (hkey v hv).mono (hF.trans (hG.trans (hH.trans hI)))⟩
      have writes (written : List Variable) (callee : Nat) (isForgotten : Bool) : Acts true k H
          (if isForgotten then overwrite written >>= fun _ => put (.call i f args offset key)
            else (written.forM fun x => note (.pass x callee)) >>= fun _ => put (.call i f args offset key))
          fun e F => e.Draws (AtHand F) := by
        split
        · exact Acts.overwrite.bind fun _ I hI _ => last I hI
        · exact (Acts.forM fun _ _ _ _ => .note fun _ _ _ => .pass).bind fun _ I hI _ => last I hI
      split
      · exact quietly_recordCall.acts_then fun _ => writes _ _ _
      · exact writes _ _ _

/-- An expression whose names are resolved anew. -/
theorem acts_relink {inner : Bool} {e : Expr} (he : e.Draws (AtHand E)) :
    Acts inner k E (relink e) fun e F => e.Draws (AtHand F) :=
  idle_relink.acts fun _ _ _ h => runs_relink he h

theorem acts_publicStep (ht : t.Sound k D) (hD : D ⊆ E) {e : Expr} (he : e.Draws (AtHand E)) :
    Acts true k E (t.publicStep e) fun e F => e.Draws (AtHand F) := by
  have args {E : Set Asset} (hD : D ⊆ E) {es : List Expr} (hes : Expr.AllDraws (AtHand E) es) :=
    acts_args ht.publicly hD hes
  cases e with
  | me i =>
    refine (acts_relink (e := .dot (.name "msg") "sender") ⟨trivial, trivial⟩).bind fun e F _ he => .pure ?_
    exact Expr.draws_withType.mpr (Expr.draws_withPos.mpr he)
  | index i base key target =>
    refine (ht.publicly E hD base he.1).bind fun base F hF hbase => ?_
    refine (ht.publicly F (hD.trans hF) key (Expr.Draws.up he.2 hF)).bind fun key G hG hkey => ?_
    refine (Acts.ofExcept (Q := fun e F => e.Draws (AtHand F)) fun p hp =>
      Expr.indexedBy_draws (hbase.up hG) hkey hp).bind fun p H _ hp => ?_
    exact (acts_relink hp).bind fun e I _ he => .pure (Expr.draws_mapInfo.mpr he)
  | member i base n target =>
    refine (ht.publicly E hD base he.1).bind fun base F hF hbase => .put ⟨hbase, ?_⟩
    exact Ident.Shows.mono (fun _ => AtHand.mono hF) he.2
  | tuple i es => exact (args hD he).bind fun _ _ _ h => .put h
  | reclassify i m arg p h =>
    unfold publicStep
    dsimp only
    split
    · exact acts_evaluate (e := arg) ht hD he.1
    · exact .throw
  | cast i type arg b =>
    unfold publicStep
    dsimp only
    split
    · exact acts_evaluateOwned ht hD he
    · exact (ht.publicly E hD arg he).bind fun _ _ _ h => .put h
  | call i f as o key =>
    have whole (h : Hom) := acts_evaluateOwned (h := h) ht hD he
    have other : Acts true k E (if (Expr.call i f as o key).isCastCall then
        if ((as.head?).map (·.info.privately)).getD false then
          t.evaluateOwned (.call i f as o key) (Expr.call i f as o key).checkedType.hom
        else do
          let f ← t.publicly f
          put (.call i f (← as.mapM t.publicly) o key)
      else t.publicCall i f as o key) fun e F => e.Draws (AtHand F) := by
      split
      · split
        · exact whole _
        · refine (ht.publicly E hD f he.1).bind fun f F hF hf => ?_
          have has := Expr.AllDraws.mono (fun _ => AtHand.mono hF) as he.2.1
          exact (args (hD.trans hF) has).bind fun _ G hG h =>
            .put ⟨Expr.Draws.up hf hG, h, fun v hv => (he.2.2 v hv).mono (hF.trans hG)⟩
      · exact acts_publicCall ht hD he.1 he.2.1 he.2.2
    unfold publicStep
    dsimp only
    split
    · split
      · exact whole _
      · refine idle_symbols.acts_then fun symbols => ?_
        split
        · exact acts_shortCircuit ht hD he.1 he.2.1 he.2.2
        · exact (args hD he.2.1).bind fun _ F hF h =>
            .put ⟨Expr.Draws.up he.1 hF, h, fun v hv => (he.2.2 v hv).mono hF⟩
    · exact other
  | new | all => exact .throw
  | ident | operator | boolLit | numLit | arrayLit => exact .pure he

/-- The activities of every level have traces. -/
theorem bounded_sound (hk : k.Draws (AtHand D)) (n : Nat) : (bounded n).Sound k D := by
  induction n with
  | zero => exact ⟨fun _ _ _ _ => .throw, fun _ _ _ _ => .throw, fun _ _ _ _ _ _ => .throw, bounded_inner 0⟩
  | succ n ih =>
    refine ⟨fun _ hD _ he => acts_publicStep ih hD he, fun _ hD _ he => acts_privateStep hk ih hD he, ?_,
      bounded_inner (n + 1)⟩
    exact fun E hD _ c b hb => Block.acts_carryOut ih b c none false E hD hb
      fun _ h => absurd h (Option.not_mem_none _)

end Splitter

end Shroud
