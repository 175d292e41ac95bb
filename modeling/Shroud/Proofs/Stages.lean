import Shroud.Proofs.CallSites
import Shroud.Proofs.SplitterGrowth
import Shroud.Proofs.SplitterNames

/-!
# Stages of splitting

What the stages of splitting a contract do to the circuits of its functions and to the next free number, up to the
point where functions are taken apart.

**Numbers** are handed out in order.

**Bodies.** Splitting a body makes the circuit of its function grow and leaves all other circuits alone.

**Later stages** find out what circuits call, lay out the sections of calls and name verifiers. They do not touch what
the circuits consist of.
-/

namespace Shroud

open SplitM

/-! ## Numbers -/

/-- The activity hands out numbers in order. -/
def NumberM.Counts {α : Type} (x : NumberM α) : Prop := ∀ n a m, x n = .ok (a, m) → n ≤ m

section Counts

open NumberM

variable {α β : Type} {x : NumberM α} {f : α → NumberM β}

theorem NumberM.Counts.pure {a : α} : Counts (pure a) := by
  intro n b m h
  cases h
  exact Nat.le_refl n

theorem NumberM.Counts.bind (hx : Counts x) (hf : ∀ a, Counts (f a)) : Counts (x >>= f) := by
  intro n b m h
  obtain ⟨a, k, h₁, h₂⟩ := state_bind_ok h
  exact Nat.le_trans (hx n a k h₁) (hf a k b m h₂)

theorem NumberM.Counts.lift {y : Except Error α} : Counts (monadLift y) := by
  intro n b m h
  obtain ⟨a, _, h⟩ := except_bind_ok h
  cases h
  exact Nat.le_refl n

theorem NumberM.Counts.throw {e : Error} : Counts (throw e : NumberM α) := fun _ _ _ h => by cases h

theorem counts_fresh : Counts NumberM.fresh := by
  intro n a m h
  cases h
  exact Nat.le_succ n

theorem NumberM.Counts.mapM {f : α → NumberM β} (hf : ∀ a, Counts (f a)) (as : List α) : Counts (as.mapM f) := by
  induction as with
  | nil =>
    rw [List.mapM_nil]
    exact .pure
  | cons a as ih =>
    rw [List.mapM_cons]
    exact (hf a).bind fun _ => ih.bind fun _ => .pure

theorem SplitM.Growing.counts {x : SplitM α} {k : SplitContext} {symbols : Symbols} {c : Circuit} (hx : Growing x) :
    Counts (runWith k symbols c x) := by
  intro n p m h
  obtain ⟨w, hr, _, rfl⟩ := runWith_ok h
  exact (hx k _ _ w hr).1.next

theorem counts_addParam {f : FunctionDef} {type : AnnTy} {name storage : String} :
    Counts (f.addParam type name storage) := counts_fresh.bind fun _ => .pure

theorem counts_withSections {f : FunctionDef} {c : Circuit} {results : List LocalVar} :
    Counts (f.withSections c results) := by
  unfold FunctionDef.withSections
  refine counts_addParam.bind fun _ => counts_addParam.bind fun _ => counts_addParam.bind fun _ =>
    counts_addParam.bind fun _ => Counts.bind ?_ fun _ => Counts.lift.bind fun _ => Counts.lift.bind fun _ => .pure
  split
  · exact counts_fresh.bind fun _ => .pure
  · exact .pure

theorem counts_dataStruct {f : FunctionDef} {c : Circuit} : Counts (f.dataStruct c) :=
  (Counts.mapM (fun _ => counts_fresh.bind fun _ => .pure) _).bind fun _ => counts_fresh.bind fun _ => .pure

theorem counts_addSections {cs : List Circuit} (ss : List FunctionSplit) : Counts (addSections cs ss) := by
  induction ss with
  | nil => exact .pure
  | cons s ss ih =>
    unfold addSections
    split
    · exact ih.bind fun _ => .pure
    · split
      · exact .throw
      · rename_i c _
        have sections : Counts (do
            let struct ← (if c.needsData then do return [← s.function.dataStruct c] else return [])
            let f ← s.function.withSections c s.results
            let p ← addSections cs ss
            return (({ s with function := f } :: p.1, struct ++ p.2) : List FunctionSplit × List StructDef)) := by
          refine Counts.bind ?_ fun _ => counts_withSections.bind fun _ => ih.bind fun _ => .pure
          split
          · exact counts_dataStruct.bind fun _ => .pure
          · exact .pure
        dsimp only
        cases c.sizes.isPositive with
        | false => exact Counts.throw.bind fun _ => sections
        | true => exact sections

theorem counts_helperVar {contract : String} : Counts (helperVar contract) := counts_fresh.bind fun _ => .pure

theorem counts_splitState {k : SplitContext} {depth : Nat} {place : LinkContext} (is : List StateItem) :
    ∀ symbols, Counts (splitState k depth place is symbols) := by
  have publicly (v : StateVar) :
      Growing (working place none (v.init.mapM (Splitter.bounded depth).publicly)) :=
    growing_hereditary.working (growing_hereditary.optionally (growing_hereditary.bounded depth).publicly)
  induction is with
  | nil => exact fun _ => .pure
  | cons i is ih =>
    intro symbols
    unfold splitState
    refine Counts.bind ?_ fun _ => (ih _).bind fun _ => .pure
    unfold StateItem.split
    split
    · exact (publicly _).counts.bind fun _ => .pure
    · exact .throw

end Counts

/-! ## Bodies -/

/-- The second circuit is the first one after bodies were split: new calls lead to functions that need proofs, and new
names are different from the others. -/
structure Circuit.Built (os : List Label) (P : Nat → Prop) (c d : Circuit) : Prop where
  grows : c.Grows os d
  calls : ∀ call ∈ d.calls, call ∈ c.calls ∨ P call.callee
  names : Supplies.Apart c.supply → Supplies.Apart d.supply

section Bodies

variable {P : Nat → Prop} {k : SplitContext} {symbols : Symbols} {depth : Nat} {cs ks : List Circuit} {n m : Nat}

theorem Circuit.Built.refl (os : List Label) (P : Nat → Prop) (c : Circuit) : c.Built os P c :=
  ⟨.refl os c, fun _ => .inl, id⟩

theorem Circuit.Built.trans {os : List Label} {c d e : Circuit} (h : c.Built os P d) (k : d.Built os P e) :
    c.Built os P e := by
  refine ⟨h.grows.trans k.grows, fun call hc => ?_, k.names ∘ h.names⟩
  rcases k.calls call hc with hc | known
  · exact h.calls call hc
  · exact .inr known

/-- Functions that need a proof are known by these numbers. -/
def Symbols.Proves (symbols : Symbols) (P : Nat → Prop) : Prop :=
  ∀ i g, symbols.function? i = some g → g.facts.needsProof = true → P g.id

theorem FunctionSplit.splitBody_built {place : LinkContext} {s r : FunctionSplit} {c d : Circuit}
    (known : symbols.Proves P) (h : s.splitBody k symbols depth place c n = .ok ((r, d), m)) :
    c.Built k.owners P d ∧ n ≤ m := by
  obtain ⟨body, n₁, hbody, h⟩ := state_bind_ok h
  obtain ⟨⟨split, c₁⟩, n₂, hsplit, h⟩ := state_bind_ok h
  cases state_pure_ok h
  obtain ⟨w, hr, rfl, rfl⟩ := runWith_ok hsplit
  have renumbered : n ≤ n₁ := by
    cases hbody
    exact Block.counting_renumber _ n
  obtain ⟨grows, calls⟩ := growing_hereditary.block_split (b := ⟨.bounded depth, _, _, _⟩)
    (growing_hereditary.bounded depth) body place k _ _ w hr
  have names := distinguishing_hereditary.block_split (b := ⟨.bounded depth, _, _, _⟩)
    (distinguishing_hereditary.bounded depth) body place k _ _ w hr
  refine ⟨⟨grows.circuit, fun call hc => (calls call hc).imp_right ?_, names⟩, Nat.le_trans renumbered grows.next⟩
  rintro ⟨i, g, hg, proof, callee⟩
  exact callee ▸ known i g hg proof

theorem Circuit.distinct_of_forall₂ {R : Circuit → Circuit → Prop} (h : List.Forall₂ R cs ks)
    (hR : ∀ c d, R c d → d.function = c.function) (distinct : Distinct cs) : Distinct ks := by
  have same : ks.map function = cs.map function := by
    induction h with
    | nil => rfl
    | cons first _ ih => rw [List.map_cons, List.map_cons, hR _ _ first, ih (List.nodup_cons.mp distinct).2]
  unfold Distinct
  rwa [same]

/-- Splitting bodies makes the circuits of their functions grow. -/
theorem splitBodies_built {place : FunctionDef → LinkContext} {ss rs : List FunctionSplit}
    (known : symbols.Proves P) (distinct : Circuit.Distinct cs)
    (h : splitBodies k symbols depth place ss cs n = .ok ((rs, ks), m)) :
    List.Forall₂ (fun c d => c.Built k.owners P d ∧ (c.function ∉ ss.map (·.function.id) → d = c)) cs ks ∧ n ≤ m := by
  induction ss generalizing cs n rs ks m with
  | nil =>
    cases state_pure_ok h
    exact ⟨List.forall₂_same.mpr fun c _ => ⟨.refl _ P c, fun _ => rfl⟩, Nat.le_refl n⟩
  | cons s ss ih =>
    obtain ⟨⟨r, c⟩, n₁, hr, h⟩ := state_bind_ok h
    obtain ⟨⟨rest, circuits⟩, n₂, hrest, h⟩ := state_bind_ok h
    cases state_pure_ok h
    obtain ⟨built, first⟩ := FunctionSplit.splitBody_built known hr
    have own : c.function = s.function.id := by
      rw [built.grows.function]
      cases hf : Circuit.find? cs s.function.id with
      | none => rfl
      | some d => exact Circuit.find?_function hf
    have updated : List.Forall₂ (fun a d => a.Built k.owners P d ∧ (a.function ≠ s.function.id → d = a)) cs
        (Circuit.update cs c) := by
      rw [Circuit.update_eq]
      refine List.forall₂_map_right_iff.mpr (List.forall₂_same.mpr fun a ha => ?_)
      unfold Circuit.replace
      split
      · rename_i hf
        have hf : a.function = s.function.id := (beq_iff_eq.mp hf).trans own
        rw [← hf, distinct.find? ha] at built
        exact ⟨built, fun other => (other hf).elim⟩
      · exact ⟨.refl _ P a, fun _ => rfl⟩
    obtain ⟨later, last⟩ := ih (Circuit.distinct_of_forall₂ updated (fun _ _ h => h.1.grows.function) distinct) hrest
    refine ⟨forall₂_comp (fun a b d h h' => ⟨h.1.trans h'.1, fun other => ?_⟩) updated later,
      Nat.le_trans first last⟩
    rw [List.map_cons, List.mem_cons, not_or] at other
    have same := h.2 other.1
    exact (h'.2 (same ▸ other.2)).trans same

end Bodies

/-! ## Later stages -/

section Later

open Circuit

variable {cs ds ks : List Circuit} {ss rs : List FunctionSplit} {fs : List Nat} {g : Circuit → Circuit}

/-- Change the circuits of these functions. -/
def Circuit.mapAt (fs : List Nat) (g : Circuit → Circuit) (cs : List Circuit) : List Circuit :=
  cs.map fun k => if k.function ∈ fs then g k else k

theorem Circuit.mapAt_function (hg : ∀ k, (g k).function = k.function) (k : Circuit) :
    (if k.function ∈ fs then g k else k).function = k.function := by
  split
  · exact hg k
  · rfl

theorem Circuit.Distinct.map (distinct : Distinct cs) (hg : ∀ k, (g k).function = k.function) : Distinct (cs.map g) := by
  unfold Distinct
  rw [List.map_map, show Circuit.function ∘ g = Circuit.function from funext hg]
  exact distinct

/-- Putting changed circuits in their places, one after the other. -/
theorem foldl_update (distinct : Distinct cs) (hg : ∀ k, (g k).function = k.function) {ls : List Circuit}
    (hl : ∀ l ∈ ls, ∃ k ∈ cs, l = g k) : ls.foldl update cs = mapAt (ls.map Circuit.function) g cs := by
  have all (ls : List Circuit) (hl : ∀ l ∈ ls, ∃ k ∈ cs, l = g k) (fs : List Nat) :
      ls.foldl update (mapAt fs g cs) = mapAt (fs ++ ls.map Circuit.function) g cs := by
    induction ls generalizing fs with
    | nil => rw [List.foldl_nil, List.map_nil, List.append_nil]
    | cons l ls ih =>
      obtain ⟨⟨c, hc, rfl⟩, rest⟩ := List.forall_mem_cons.mp hl
      rw [List.foldl_cons, List.map_cons, List.append_cons, ← ih rest, update_eq]
      refine congrArg (ls.foldl update) ?_
      unfold mapAt
      rw [List.map_map]
      refine List.map_congr_left fun k hk => ?_
      rw [Function.comp_apply]
      unfold replace
      rw [mapAt_function hg, hg]
      by_cases same : k.function = c.function
      · rw [if_pos (beq_iff_eq.mpr same), if_pos (by simp [same]), distinct.eq hk hc same]
      · rw [if_neg (mt beq_iff_eq.mp same)]
        exact if_congr (by simp [same]) rfl rfl
  have start : mapAt [] g cs = cs := by simp [mapAt]
  have result := all ls hl []
  rwa [start, List.nil_append] at result

/-- The functions of a contract that need a proof. -/
def FunctionSplit.proved (ss : List FunctionSplit) : List Nat :=
  (ss.filter (·.function.facts.needsProof)).map (·.function.id)

/-- Calls are only laid out if circuits know the sizes of what they call. -/
theorem layOutCalls_ok (distinct : Distinct cs) (h : layOutCalls ss cs = .ok (rs, ks)) :
    (∀ f ∈ FunctionSplit.proved ss, ∃ c, find? cs f = some c ∧ c.called = some (c.callsSizes cs)) ∧
      ks = mapAt (FunctionSplit.proved ss) (fun k => (k.layOut cs).1) cs := by
  obtain ⟨laidOut, hl, h⟩ := except_bind_ok h
  cases h
  have made := except_mapM_ok (R := fun (s : FunctionSplit) (p : Circuit × List (Nat × List Expr)) =>
    ∃ c, find? cs s.function.id = some c ∧ c.called = some (c.callsSizes cs) ∧ p.1 = (c.layOut cs).1)
    (fun s p hs => ?_) hl
  · refine ⟨fun f hf => ?_, ?_⟩
    · obtain ⟨s, hs, rfl⟩ := List.mem_map.mp hf
      obtain ⟨_, _, c, hc, called, _⟩ := exists_mem_of_forall₂_left made hs
      exact ⟨c, hc, called⟩
    · have functions : (laidOut.map (·.1)).map Circuit.function = FunctionSplit.proved ss := by
        unfold FunctionSplit.proved
        rw [List.map_map]
        refine forall₂_map_eq (made.imp fun s p h => ?_)
        obtain ⟨c, hc, _, same⟩ := h
        rw [Function.comp_apply, same, layOut_eq]
        exact (find?_function hc : c.function = s.function.id)
      rw [foldl_update (g := fun k => (k.layOut cs).1) distinct (fun k => by rw [layOut_eq]) (fun l hl => ?_),
        functions]
      obtain ⟨p, hp, rfl⟩ := List.mem_map.mp hl
      obtain ⟨s, _, c, hc, _, same⟩ := exists_mem_of_forall₂_right made hp
      exact ⟨c, List.mem_of_find?_eq_some hc, same⟩
  · dsimp only at hs
    split at hs
    · cases hs
    · rename_i c hc
      rw [layOut_eq] at hs
      dsimp only at hs
      split at hs
      · rename_i called
        cases hs
        exact ⟨c, hc, called, by rw [layOut_eq]⟩
      · cases hs

/-- Name the verifiers of these functions. -/
def Circuit.named (name : FunctionSplit → String) (ss : List FunctionSplit) (k : Circuit) : Circuit :=
  ss.foldl (fun k s => if k.function == s.function.id then { k with verifier := some (name s) } else k) k

theorem foldl_named (name : FunctionSplit → String) : ss.foldl (fun ks s => ks.map fun k =>
    if k.function == s.function.id then { k with verifier := some (name s) } else k) cs =
    cs.map (named name ss) := by
  induction ss generalizing cs with
  | nil =>
    rw [List.foldl_nil]
    exact (List.map_id cs).symm
  | cons s ss ih =>
    rw [List.foldl_cons, ih, List.map_map]
    rfl

/-- Only the verifiers of these functions are named. -/
theorem Circuit.named_eq (name : FunctionSplit → String) (ss : List FunctionSplit) (k : Circuit) :
    named name ss k = { k with verifier := (named name ss k).verifier } ∧
      (k.function ∉ ss.map (·.function.id) → named name ss k = k) := by
  unfold named
  induction ss generalizing k with
  | nil => exact ⟨rfl, fun _ => rfl⟩
  | cons s ss ih =>
    rw [List.foldl_cons, List.map_cons, List.mem_cons, not_or]
    split
    · rename_i hf
      obtain ⟨same, _⟩ := ih { k with verifier := some (name s) }
      exact ⟨same, fun h => (h.1 (beq_iff_eq.mp hf)).elim⟩
    · obtain ⟨same, other⟩ := ih k
      exact ⟨same, fun h => other h.2⟩

/-- What becomes of a circuit between the splitting of bodies and the taking apart of functions: it learns what it
calls if its function needs a proof, and may get a verifier. `ps` are the functions that need a proof, `us` those that
do not, and `os` those that get verifiers. -/
structure Circuit.Readied (ps us os : List Nat) (cs ks : List Circuit) (c d : Circuit) : Prop where
  function : d.function = c.function
  body : d.body = c.body
  inputs : d.inputs = c.inputs
  outputs : d.outputs = c.outputs
  ownSizes : d.ownSizes = c.ownSizes
  supply : d.supply = c.supply
  secretKeys : d.secretKeys = c.secretKeys
  callees : d.calls.map CircuitCall.callee = c.calls.map CircuitCall.callee
  verifier : c.function ∉ os → d.verifier = c.verifier
  proved : c.function ∈ ps → ∃ t s, Totals cs c t s ∧ d.keys = t.keys ∧ d.callees = some t.callees ∧
    d.called = some (d.callsSizes ks) ∧ d.calls.map CircuitCall.offset = (d.places ks).map CircuitSizes.secret
  unproved : c.function ∉ ps → d.keys = c.keys ∧ d.calls = c.calls
  other : c.function ∉ ps → c.function ∉ us → c.function ∉ os → d = c

/-- Circuits are found as they are after a change that keeps their sizes. -/
theorem Circuit.sizesAt_map (hg : ∀ k, (g k).function = k.function) (hs : ∀ k, (g k).sizes = k.sizes) (f : Nat) :
    sizesAt (cs.map g) f = sizesAt cs f := by
  unfold sizesAt
  rw [find?_map hg, Option.map_map]
  exact congrArg (fun h => ((find? cs f).map h).getD 0) (funext hs)

/-- Naming verifiers changes nothing that sites depend on. -/
theorem Circuit.named_sites (name : FunctionSplit → String) (ss : List FunctionSplit) (k : Circuit)
    (h : ∀ f, sizesAt ks f = sizesAt cs f) : (named name ss k).sites ks = k.sites cs := by
  rw [(named_eq name ss k).1]
  exact sites_congr rfl rfl rfl fun call _ => h call.callee

/-- The calls in the body get these arguments. -/
def FunctionSplit.told (sites : List (Nat × List Expr)) (s : FunctionSplit) : FunctionSplit :=
  { s with function := { s.function with body := s.function.body.mapExprs (Expr.addArgs sites) } }

/-- Calls in bodies get the arguments of the sites of all these functions. -/
theorem layOutCalls_sites (outer : List FunctionSplit) (name : FunctionSplit → String) (distinct : Distinct cs)
    (laidOut : layOutCalls ss cs = .ok (rs, ds)) (verified : ks = ds.map (named name outer)) :
    rs = ss.map (FunctionSplit.told ((FunctionSplit.proved ss).flatMap (sitesAt ks))) := by
  obtain ⟨_, after⟩ := layOutCalls_ok distinct laidOut
  let settle (k : Circuit) : Circuit :=
    named name outer (if k.function ∈ FunctionSplit.proved ss then (k.layOut cs).1 else k)
  have last : ks = cs.map settle := by
    rw [verified, after]
    exact List.map_map ..
  have settled (k : Circuit) : (settle k).function = k.function ∧ (settle k).sizes = k.sizes := by
    rw [show settle k = named name outer _ from rfl, (named_eq name outer _).1]
    split
    · rw [layOut_eq]
      exact ⟨rfl, rfl⟩
    · exact ⟨rfl, rfl⟩
  have sizes (f : Nat) : sizesAt ks f = sizesAt cs f := by
    rw [last]
    exact sizesAt_map (fun k => (settled k).1) (fun k => (settled k).2) f
  have same (i : Nat) : sitesAt ks i = sitesAt cs i := by
    have sites (k : Circuit) : (settle k).sites ks = k.sites cs := by
      refine (named_sites name outer _ sizes).trans ?_
      split
      · exact sites_layOut fun _ => rfl
      · rfl
    unfold sitesAt
    rw [last, find?_map fun k => (settled k).1, Option.map_map, ← last]
    exact congrArg (fun h => ((find? cs i).map h).getD []) (funext sites)
  obtain ⟨circuits, hl, h⟩ := except_bind_ok laidOut
  cases h
  have made := except_mapM_ok (R := fun (s : FunctionSplit) (p : Circuit × List (Nat × List Expr)) =>
    p.2 = sitesAt cs s.function.id) (fun s p hs => ?_) hl
  · have told : circuits.flatMap (·.2) = (FunctionSplit.proved ss).flatMap (sitesAt ks) := by
      rw [List.flatMap_congr fun i _ => same i]
      unfold FunctionSplit.proved
      rw [List.flatMap_map]
      clear hl laidOut verified after
      generalize ss.filter (·.function.facts.needsProof) = fs at made
      induction made with
      | nil => rfl
      | cons first _ ih => rw [List.flatMap_cons, List.flatMap_cons, ih, first]
    rw [← told]
    rfl
  · dsimp only at hs
    split at hs
    · cases hs
    · rename_i c hc
      split at hs
      · cases hs
        rw [layOut_sites, sitesAt, hc]
        rfl
      · cases hs

/-- Functions that need a proof get sections for their circuits, and the calls in their bodies get the arguments of all
sites. -/
theorem sections_told {bodies : List FunctionSplit} {structs : List StructDef} {n m : Nat} (outer : List FunctionSplit)
    (name : FunctionSplit → String) (distinct : Distinct cs) (laidOut : layOutCalls ss cs = .ok (rs, ds))
    (sections : addSections ds rs n = .ok ((bodies, structs), m)) (verified : ks = ds.map (named name outer)) :
    ∀ t ∈ bodies, t.function.facts.needsProof = true → ∃ r, find? ks t.function.id = some r ∧
      ∀ g : FunctionDef, g.body = t.function.body →
        g.InSections r.sizes ((FunctionSplit.proved ss).flatMap (sitesAt ks)) := by
  intro t ht needs
  obtain ⟨s, hs, same, checks⟩ := exists_mem_of_forall₂_right (addSections_checks sections) ht
  obtain ⟨k, before, after, found, stmts⟩ := checks (same.needsProof.symm.trans needs)
  rw [layOutCalls_sites outer name distinct laidOut verified] at hs
  obtain ⟨s, _, rfl⟩ := List.mem_map.mp hs
  refine ⟨named name outer k, ?_, fun g body => ⟨s.function.body, before, after, ?_⟩⟩
  · rw [verified, find?_map fun k => by rw [(named_eq name outer k).1], same.id, found]
    rfl
  · rw [body, stmts, (named_eq name outer k).1]
    rfl

/-- The later stages, one after the other. -/
theorem readied {ps us : List Nat} {cs₁ cs₂ cs₃ : List Circuit} {title : Nat → String} (outer : List FunctionSplit)
    (name : FunctionSplit → String) (distinct : Distinct cs) (hp : ps = FunctionSplit.proved ss)
    (disjoint : ∀ f ∈ us, f ∉ ps) (completed : complete title ps cs = .ok cs₁)
    (marked : cs₂ = cs₁.map fun k => if us.contains k.function then { k with called := some .zero } else k)
    (laidOut : layOutCalls ss cs₂ = .ok (rs, cs₃)) (verified : ks = cs₃.map (named name outer)) :
    List.Forall₂ (Readied ps us (outer.map (·.function.id)) cs ks) cs ks := by
  obtain ⟨totals, first⟩ := (complete_ok_iff distinct).mp completed
  let mark (k : Circuit) : Circuit := if us.contains k.function then { k with called := some .zero } else k
  have markFunction (k : Circuit) : (mark k).function = k.function := by
    show (if _ then _ else _ : Circuit).function = _
    split <;> rfl
  let learn (k : Circuit) : Circuit := mark (if k.function ∈ ps then k.completed cs else k)
  have learnFunction (k : Circuit) : (learn k).function = k.function := by
    rw [markFunction]
    split
    · exact completed_function cs k
    · rfl
  have second : cs₂ = cs.map learn := by
    rw [marked, first, List.map_map]
    rfl
  have distinct₂ : Distinct cs₂ := second ▸ distinct.map learnFunction
  obtain ⟨called, third⟩ := layOutCalls_ok distinct₂ laidOut
  rw [← hp] at called third
  let settle (k : Circuit) : Circuit := named name outer (if k.function ∈ ps then (k.layOut cs₂).1 else k)
  have settled (k : Circuit) : settle k = { k with
      calls := if k.function ∈ ps then (k.layOut cs₂).1.calls else k.calls
      verifier := (settle k).verifier } ∧
      (k.function ∉ outer.map (·.function.id) → (settle k).verifier = k.verifier) := by
    obtain ⟨same, other⟩ := named_eq name outer (if k.function ∈ ps then (k.layOut cs₂).1 else k)
    rw [show settle k = named name outer _ from rfl]
    split at same
    · rename_i hf
      simp only [if_pos hf] at other ⊢
      refine ⟨same.trans (by rw [layOut_eq]), fun h => (congrArg Circuit.verifier (other ?_)).trans ?_⟩
      · rwa [layOut_eq]
      · rw [layOut_eq]
    · rename_i hf
      simp only [if_neg hf] at other ⊢
      exact ⟨same, fun h => congrArg Circuit.verifier (other h)⟩
  have last : ks = cs₂.map settle := by
    rw [verified, third]
    exact List.map_map ..
  have settleSizes (k : Circuit) : (settle k).sizes = k.sizes := by
    rw [(settled k).1]
    rfl
  have same (f : Nat) : sizesAt ks f = sizesAt cs₂ f := by
    rw [last]
    exact sizesAt_map (fun k => by rw [(settled k).1]) settleSizes f
  have whole : cs.map (fun k => settle (learn k)) = ks := by
    rw [last, second, List.map_map]
    rfl
  suffices all : ∀ k ∈ cs, Readied ps us (outer.map (·.function.id)) cs ks k (settle (learn k)) by
    have pairs := List.forall₂_map_right_iff.mpr (List.forall₂_same.mpr all)
    rwa [whole] at pairs
  intro k hk
  obtain ⟨eq, verifier⟩ := settled (learn k)
  by_cases hf : k.function ∈ ps
  · obtain ⟨c, t, s, hc, ht⟩ := totals _ hf
    obtain rfl : c = k := distinct.eq (List.mem_of_find?_eq_some hc) hk (find?_function hc)
    have learnt : learn c = { c with keys := t.keys, callees := some t.callees, called := some s } := by
      have known : learn c = mark (c.completed cs) := congrArg mark (if_pos hf)
      rw [known, ht.completed_eq]
      exact if_neg fun h => disjoint _ (List.contains_iff_mem.mp h) hf
    obtain ⟨d, hd, size⟩ := called _ hf
    rw [second, find?_map learnFunction, hc] at hd
    obtain rfl := Option.some.inj hd
    obtain ⟨_, callees, offsets⟩ := layOut_calls cs₂ (learn c)
    rw [if_pos ((learnFunction c).symm ▸ hf)] at eq
    generalize (settle (learn c)).verifier = v at eq verifier
    rw [eq]
    have all : ((learn c).layOut cs₂).1.calls.map CircuitCall.callee = c.calls.map CircuitCall.callee := by
      rw [callees, learnt]
    refine ⟨learnFunction c, by rw [learnt], by rw [learnt], by rw [learnt], by rw [learnt]; rfl, by rw [learnt]; rfl,
      by rw [learnt], all,
      fun h => ?_, fun _ => ⟨t, s, ht, by rw [learnt], by rw [learnt], ?_, ?_⟩, fun h => (h hf).elim, fun h => (h hf).elim⟩
    · exact (verifier ((learnFunction c).symm ▸ h)).trans (by rw [learnt])
    · refine size.trans (congrArg some (Eq.symm (callsSizes_congr ?_ fun call _ => same call.callee)))
      exact callees
    · refine offsets.trans (congrArg _ (Eq.symm (places_congr ?_ rfl fun call _ => same call.callee)))
      exact callees
  · have learnt : learn k = mark k := congrArg mark (if_neg hf)
    have marked : ∃ s, mark k = { k with called := s } ∧ (k.function ∉ us → mark k = k) := by
      by_cases hu : k.function ∈ us
      · exact ⟨some .zero, if_pos (List.contains_iff_mem.mpr hu), fun h => (h hu).elim⟩
      · have same : mark k = k := if_neg fun h => hu (List.contains_iff_mem.mp h)
        exact ⟨k.called, same, fun _ => same⟩
    rw [if_neg ((learnFunction k).symm ▸ hf), learnt] at eq
    rw [learnt] at verifier ⊢
    obtain ⟨s, hs, other⟩ := marked
    have unnamed (h : k.function ∉ outer.map (·.function.id)) : (settle (mark k)).verifier = k.verifier := by
      rw [verifier (by rwa [markFunction]), hs]
    generalize (settle (mark k)).verifier = v at eq unnamed
    rw [eq, hs]
    refine ⟨rfl, rfl, rfl, rfl, rfl, rfl, rfl, rfl, unnamed, fun h => (hf h).elim, fun _ => ⟨rfl, rfl⟩, fun _ hu ho => ?_⟩
    rw [unnamed ho, ← hs]
    exact other hu

end Later

/-! ## Contracts -/

section Contracts

variable {cs ks : List Circuit} {n m : Nat}

/-- The numbers of some of the functions of a contract. -/
def Contract.functionsWith (c : Contract) (p : FunctionDef → Bool) : List Nat :=
  (c.allFunctions.filter p).map FunctionDef.id

/-- The circuits that splitting a contract starts with. -/
def Contract.emptyCircuits (c : Contract) : List Circuit :=
  (c.allFunctions.filter fun f => f.facts.needsProof || f.facts.needsProofExternally).map fun f => Circuit.empty f.id

/-- Every function that needs a proof has a body with sections for its circuit, and its calls are told the sites of the
circuits of all these functions. -/
def Contract.Told (c : Contract) (ready : List Circuit) (d : Contract) : Prop :=
  ∀ f ∈ c.allFunctions, f.facts.needsProof = true → ∃ g ∈ d.allFunctions, g.id = f.id ∧
    ∃ r, Circuit.find? ready f.id = some r ∧
      g.InSections r.sizes ((c.functionsWith (·.facts.needsProof)).flatMap (Circuit.sitesAt ready))

/-- Bodies are split, calls are laid out, then functions are taken apart. -/
inductive Contract.Staged (o : Options) (P : Nat → Prop) (c : Contract) (cs : List Circuit) (n : Nat) (d : Contract)
    (ks : List Circuit) (m : Nat) : Prop
  | intro {built ready : List Circuit} {k : SplitContext} {symbols : Symbols} {params : Nat → List Param}
      {bodies : List FunctionSplit} {parts : List (FunctionDef × FunctionDef)} {n₁ : Nat}
      (split : List.Forall₂ (fun a b => a.Built c.knownOwners P b ∧ (a.function ∉ c.allFunctions.map FunctionDef.id → b = a))
        (cs ++ c.emptyCircuits) built)
      (later : List.Forall₂ (Circuit.Readied (c.functionsWith (·.facts.needsProof))
        (c.functionsWith (!·.facts.needsProof)) (c.functionsWith (·.facts.needsProofExternally)) built ready) built ready)
      (kept : List.Forall₂ (fun f s => f.SameMarks s.function) c.allFunctions bodies)
      (signed : ∀ f ∈ c.allFunctions, params f.id = f.params.map (Param.encrypted o))
      (taken : splitParts k symbols params (bodies.filter (·.function.facts.needsProofExternally)) ready n₁ =
        .ok ((parts, ks), m))
      (counts : n ≤ n₁) (owners : k.owners = c.knownOwners) (code : ∀ p ∈ parts, p.1 ∈ d.allFunctions)
      (told : c.Told ready d) : Staged o P c cs n d ks m

theorem splitState_within {k : SplitContext} {depth : Nat} {place : LinkContext} {is js : List StateItem}
    {symbols symbols' : Symbols} (h : splitState k depth place is symbols n = .ok ((js, symbols'), m)) :
    symbols'.Within symbols := by
  induction is generalizing symbols n js symbols' m with
  | nil =>
    cases state_pure_ok h
    exact .refl _
  | cons i is ih =>
    obtain ⟨j, n₁, _, h⟩ := state_bind_ok h
    obtain ⟨⟨rest, symbols₁⟩, n₂, hrest, h⟩ := state_bind_ok h
    cases state_pure_ok h
    have later := ih hrest
    split at later
    · exact later.trans (Symbols.setType_within _ _)
    · exact later

theorem setParams_within (symbols : Symbols) (ps : List Param) : (symbols.setParams ps).Within symbols := by
  unfold Symbols.setParams
  induction ps generalizing symbols with
  | nil => exact .refl symbols
  | cons p ps ih => exact (ih _).trans (Symbols.setType_within _ _)

/-- Marks decide which functions are listed. -/
theorem functionsWith_eq {c : Contract} {ss : List FunctionSplit} {p : FunctionDef → Bool}
    (kept : List.Forall₂ (fun f s => f.SameMarks s.function) c.allFunctions ss)
    (hp : ∀ f g : FunctionDef, f.SameMarks g → p g = p f) :
    (ss.filter fun s => p s.function).map (·.function.id) = c.functionsWith p := by
  unfold Contract.functionsWith
  generalize c.allFunctions = fs at kept ⊢
  induction kept with
  | nil => rfl
  | cons first _ ih =>
    rw [List.filter_cons, List.filter_cons, hp _ _ first]
    split
    · rw [List.map_cons, List.map_cons, ih, first.id]
    · exact ih

/-- The parameters that external parts take are those of the functions of the contract. -/
theorem signed_params {o : Options} {fs : List FunctionDef} {ss : List FunctionSplit}
    (same : List.Forall₂ (fun f (s : FunctionSplit) => s.function = f) fs ss) (numbers : (fs.map FunctionDef.id).Nodup) :
    ∀ f ∈ fs, (((ss.map (FunctionSplit.encrypted o)).find? (·.function.id == f.id)).map (·.function.params)).getD [] =
      f.params.map (Param.encrypted o) := by
  intro f hf
  induction same with
  | nil => cases hf
  | @cons g s fs ss first _ ih =>
    subst first
    rw [List.map_cons, List.nodup_cons] at numbers
    rw [List.map_cons, List.find?_cons]
    rcases List.mem_cons.mp hf with rfl | hf
    · rw [show ((s.encrypted o).function.id == s.function.id) = true from beq_self_eq_true _]
      rfl
    · have other : ((s.encrypted o).function.id == f.id) = false :=
        beq_eq_false_iff_ne.mpr fun h => numbers.1 (List.mem_map.mpr ⟨f, hf, h.symm⟩)
      rw [other]
      exact ih numbers.2 hf

theorem Contract.split_staged {P : Nat → Prop} {o : Options} {unit : SourceUnit} {symbols : Symbols} {c d : Contract}
    (known : symbols.Proves P) (numbers : (c.allFunctions.map FunctionDef.id).Nodup)
    (distinct : Circuit.Distinct (cs ++ c.emptyCircuits)) (h : c.split o unit symbols cs n = .ok ((d, ks), m)) :
    c.Staged o P cs n d ks m := by
  unfold Contract.split at h
  obtain ⟨whole, n₁, hwhole, h⟩ := state_bind_ok h
  obtain ⟨⟨state, symbols'⟩, n₂, hstate, h⟩ := state_bind_ok h
  obtain ⟨⟨bodies₁, circuits₁⟩, n₃, hbodies, h⟩ := state_bind_ok h
  obtain ⟨circuits₂, n₄, hcomplete, h⟩ := state_bind_ok h
  obtain ⟨⟨bodies₂, circuits₃⟩, n₅, hlay, h⟩ := state_bind_ok h
  obtain ⟨⟨bodies, structs⟩, n₆, hsections, h⟩ := state_bind_ok h
  obtain ⟨registries, n₇, hregistries, h⟩ := state_bind_ok h
  obtain ⟨verifiers, n₈, hverifiers, h⟩ := state_bind_ok h
  obtain ⟨⟨parts, circuits₄⟩, n₉, hparts, h⟩ := state_bind_ok h
  cases state_pure_ok h
  have same : List.Forall₂ (fun f (s : FunctionSplit) => s.function = f) c.allFunctions whole := by
    refine state_mapM_ok (fun f n s m hs => ?_) hwhole
    obtain ⟨results, n', _, hs⟩ := state_bind_ok hs
    cases state_pure_ok hs
    rfl
  have first := same.imp fun f (s : FunctionSplit) h => (h ▸ .refl _ : f.SameMarks s.function)
  have signed : FunctionSplit.Kept whole (whole.map (FunctionSplit.encrypted o)) :=
    List.forall₂_map_right_iff.mpr (List.forall₂_same.mpr fun s _ => ⟨⟨rfl, rfl, rfl⟩, rfl, rfl⟩)
  have after {ss : List FunctionSplit} (kept : FunctionSplit.Kept whole ss) :
      List.Forall₂ (fun f (s : FunctionSplit) => f.SameMarks s.function) c.allFunctions ss :=
    forall₂_comp (fun _ _ _ h h' => h.trans h') first kept
  have split := signed.trans (splitBodies_kept hbodies)
  have laidOut := split.trans (layOutCalls_kept (state_lift_ok hlay))
  have sections := laidOut.trans (addSections_kept hsections)
  have known' : (symbols'.setParams ((whole.map (FunctionSplit.encrypted o)).flatMap fun s =>
      s.function.params ++ s.function.returns)).Proves P := fun i g hg =>
    known i g (splitState_within hstate i g (setParams_within _ _ i g hg))
  obtain ⟨built, counts⟩ := splitBodies_built known' distinct hbodies
  have ids : (whole.map (FunctionSplit.encrypted o)).map (·.function.id) = c.allFunctions.map FunctionDef.id :=
    forall₂_map_eq ((after signed).imp fun _ _ h => h.id)
  rw [ids] at built
  have distinct₁ := Circuit.distinct_of_forall₂ built (fun _ _ h => h.1.grows.function) distinct
  have proved : FunctionSplit.proved bodies₁ = c.functionsWith (·.facts.needsProof) :=
    functionsWith_eq (after split) fun _ _ h => h.needsProof
  have unproved : (bodies₁.filter fun s => !s.function.facts.needsProof).map (·.function.id) =
      c.functionsWith (!·.facts.needsProof) :=
    functionsWith_eq (p := (!·.facts.needsProof)) (after split) fun _ _ h => by rw [h.needsProof]
  have outer : (bodies.filter (·.function.facts.needsProofExternally)).map (·.function.id) =
      c.functionsWith (·.facts.needsProofExternally) :=
    functionsWith_eq (after sections) fun _ _ h => h.needsProofExternally
  have disjoint : ∀ f ∈ c.functionsWith (!·.facts.needsProof), f ∉ c.functionsWith (·.facts.needsProof) := by
    intro i hu hp
    obtain ⟨f, hf, rfl⟩ := List.mem_map.mp hu
    obtain ⟨g, hg, same⟩ := List.mem_map.mp hp
    rw [List.mem_filter] at hf hg
    obtain rfl := List.inj_on_of_nodup_map numbers hg.1 hf.1 same
    simp [hg.2] at hf
  have complete := state_lift_ok hcomplete
  have layOut := state_lift_ok hlay
  rw [show (bodies₁.filter fun s => s.function.facts.needsProof).map (·.function.id) = _ from proved] at complete
  rw [unproved] at layOut
  have later := readied (bodies.filter (·.function.facts.needsProofExternally))
    (fun s => Generated.verifier c.name s.function.title) distinct₁ proved.symm disjoint complete rfl layOut
    (foldl_named _)
  rw [outer] at later
  refine .intro built later (after sections) (signed_params same numbers) hparts ?_ rfl (fun p hp => ?_) fun f hf needs => ?_
  · have counts₁ : n ≤ n₁ := NumberM.Counts.mapM (fun f => (NumberM.Counts.mapM (fun _ => counts_fresh.bind fun _ => .pure) _).bind
      fun _ => .pure) _ _ _ _ hwhole
    have counts₂ := counts_splitState _ _ _ _ _ hstate
    have counts₄ := NumberM.Counts.lift _ _ _ hcomplete
    have counts₅ := NumberM.Counts.lift _ _ _ hlay
    have counts₆ := counts_addSections _ _ _ _ hsections
    have counts₇ := NumberM.Counts.mapM (fun _ => counts_helperVar) _ _ _ _ hregistries
    have counts₈ := NumberM.Counts.mapM (fun _ => counts_helperVar) _ _ _ _ hverifiers
    omega
  · by_cases constructor : p.1.isConstructor = true
    · refine List.mem_append_left _ (List.mem_append_right _ (List.mem_filter.mpr ⟨List.mem_map_of_mem hp, constructor⟩))
    · refine List.mem_append_right _ (List.mem_append_right _ (List.mem_flatMap.mpr ⟨p, hp, ?_⟩))
      simp [constructor]
  · obtain ⟨t, ht, marks⟩ := exists_mem_of_forall₂_left (after sections) hf
    have completed : Circuit.Distinct circuits₂ := by
      rw [show circuits₂ = _ from ((Circuit.complete_ok_iff distinct₁).mp complete).2]
      exact distinct₁.map fun k => by
        split
        · exact Circuit.completed_function _ k
        · rfl
    have marked := completed.map (g := fun k =>
      if (c.functionsWith (!·.facts.needsProof)).contains k.function then { k with called := some .zero } else k)
      fun k => by split <;> rfl
    obtain ⟨r, named, inSections⟩ := sections_told (bodies.filter (·.function.facts.needsProofExternally))
      (fun s => Generated.verifier c.name s.function.title) marked layOut hsections (foldl_named _) t ht
      (marks.needsProof.trans needs)
    rw [marks.id] at named
    rw [proved] at inSections
    by_cases external : t.function.facts.needsProofExternally = true
    · obtain ⟨p, hp, _, _, inner⟩ := exists_mem_of_forall₂_left (splitParts_external hparts)
        (List.mem_filter.mpr ⟨ht, external⟩)
      refine ⟨p.2, List.mem_append_right _ (List.mem_append_right _ (List.mem_flatMap.mpr ⟨p, hp, ?_⟩)), ?_, _, named,
        inSections _ ?_⟩
      · exact List.mem_append_right _ List.mem_cons_self
      · rw [inner]
        exact marks.id
      · rw [inner]
        rfl
    · have kept : t.function ∈ (bodies.filter fun s => !s.function.facts.needsProofExternally).map (·.function) :=
        List.mem_map_of_mem (List.mem_filter.mpr ⟨ht, by simp [external]⟩)
      refine ⟨t.function, ?_, marks.id, _, named, inSections _ rfl⟩
      by_cases constructor : t.function.isConstructor = true
      · exact List.mem_append_left _ (List.mem_append_left _ (List.mem_filter.mpr ⟨kept, constructor⟩))
      · exact List.mem_append_right _ (List.mem_append_left _ (List.mem_filter.mpr ⟨kept, by simp [constructor]⟩))

end Contracts

end Shroud
