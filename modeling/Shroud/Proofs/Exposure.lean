import Mathlib.Data.List.Nodup
import Shroud.Proofs.Pointwise
import Shroud.Proofs.Sketch

/-!
# Which functions can be called from outside

Splitting gives a function that needs a proof an external part under its own name and moves its body to an
internal part. All other functions stay as they are, apart from their types and bodies.

**Exposure.** A function that needs a proof whenever it is called gets an external part even if it was
declared internal or private. So the public code offers a name exactly if the function could be called from
outside, or needs a proof: its visibility is respected only if it needs none.

**Results.**

* `Contract.split_into`: what splitting makes of the functions of a contract.
* `compile_offers_iff`: what the public code of a compiled program offers.
* `exposing_not_visibleAsDeclared`: a program whose internal function is offered.
-/

namespace Shroud

/-- A function of this name can be called from outside. -/
def Contract.Offers (c : Contract) (name : String) : Prop :=
  ∃ f ∈ c.functions, f.name = some name ∧ f.canBeExternal

instance (c : Contract) (name : String) : Decidable (c.Offers name) :=
  inferInstanceAs (Decidable (∃ f ∈ c.functions, f.name = some name ∧ f.canBeExternal))

/-- A pass that keeps names and modifiers changes nothing about what is offered. -/
theorem Contract.Pointwise.offers_iff {c d : Contract} (h : c.Pointwise FunctionDef.SameSignature d)
    (name : String) : d.Offers name ↔ c.Offers name := by
  constructor
  · rintro ⟨g, hg, hn, hx⟩
    obtain ⟨f, hf, same⟩ := exists_mem_of_forall₂_right h.functions hg
    exact ⟨f, hf, same.name ▸ hn, same.canBeExternal ▸ hx⟩
  · rintro ⟨f, hf, hn, hx⟩
    obtain ⟨g, hg, same⟩ := exists_mem_of_forall₂_left h.functions hf
    exact ⟨g, hg, same.name.trans hn, same.canBeExternal.trans hx⟩

/-! ## Names are used once -/

theorem firstOverload?_none {fs : List FunctionDef} {seen : List String} (h : firstOverload? seen fs = none) :
    (fs.map FunctionDef.title).Nodup ∧ ∀ f ∈ fs, f.title ∉ seen := by
  induction fs generalizing seen with
  | nil => exact ⟨.nil, by simp⟩
  | cons f fs ih =>
    unfold firstOverload? at h
    split at h
    · cases h
    · rename_i hf
      obtain ⟨nodup, fresh⟩ := ih h
      rw [List.contains_iff_mem] at hf
      refine ⟨List.nodup_cons.mpr ⟨?_, nodup⟩, ?_⟩
      · intro hm
        obtain ⟨g, hg, same⟩ := List.mem_map.mp hm
        exact fresh g hg (same ▸ List.mem_cons_self)
      · intro g hg
        rcases List.mem_cons.mp hg with rfl | hg
        · exact hf
        · exact fun hs => fresh g hg (List.mem_cons_of_mem _ hs)

theorem FunctionDef.title_of_name {f : FunctionDef} {n : String} (h : f.name = some n) : f.title = n := by
  unfold FunctionDef.title
  rw [h]
  rfl

theorem FunctionDef.name_of_title {f : FunctionDef} (h : f.isConstructor = false) : f.name = some f.title := by
  unfold FunctionDef.isConstructor at h
  unfold FunctionDef.title
  cases hn : f.name with
  | none => simp [hn] at h
  | some n => rfl

theorem Contract.checkNames_nodup {text : List String} {c : Contract} (h : c.checkNames text = .ok ()) :
    (c.functions.map FunctionDef.title).Nodup := by
  unfold Contract.checkNames at h
  obtain ⟨_, _, h⟩ := except_bind_ok h
  split at h
  · cases h
  · rename_i hf
    exact (firstOverload?_none hf).1

theorem SourceUnit.link_nodup {u v : SourceUnit} {next n : Nat} (h : u.link next = .ok (v, n)) :
    ∀ c ∈ u.contracts, (c.functions.map FunctionDef.title).Nodup := by
  unfold SourceUnit.link at h
  obtain ⟨_, hn, _⟩ := except_bind_ok h
  unfold SourceUnit.checkNames at hn
  obtain ⟨_, hn, _⟩ := except_bind_ok hn
  exact fun c hc => Contract.checkNames_nodup (except_for_ok hn c hc)

/-! ## The parts of a contract -/

/-- The functions on their way kept their signatures and marks. -/
abbrev FunctionSplit.Kept (ss rs : List FunctionSplit) : Prop :=
  List.Forall₂ (fun s r => s.function.SameMarks r.function) ss rs

theorem FunctionSplit.Kept.trans {ss rs qs : List FunctionSplit} (h₁ : Kept ss rs) (h₂ : Kept rs qs) :
    Kept ss qs :=
  forall₂_comp (fun _ _ _ h h' => h.trans h') h₁ h₂

theorem FunctionSplit.splitBody_kept {context : SplitContext} {symbols : Symbols} {depth : Nat}
    {place : LinkContext} {s r : FunctionSplit} {c k : Circuit} {n m : Nat}
    (h : s.splitBody context symbols depth place c n = .ok ((r, k), m)) : s.function.SameMarks r.function := by
  obtain ⟨body, n₁, _, h⟩ := state_bind_ok h
  obtain ⟨⟨split, c₁⟩, n₂, _, h⟩ := state_bind_ok h
  cases state_pure_ok h
  exact ⟨⟨rfl, rfl, rfl⟩, rfl, rfl⟩

theorem splitBodies_kept {context : SplitContext} {symbols : Symbols} {depth : Nat}
    {place : FunctionDef → LinkContext} {ss rs : List FunctionSplit} {cs ks : List Circuit} {n m : Nat}
    (h : splitBodies context symbols depth place ss cs n = .ok ((rs, ks), m)) : FunctionSplit.Kept ss rs := by
  induction ss generalizing cs n rs ks m with
  | nil =>
    cases state_pure_ok h
    exact .nil
  | cons s ss ih =>
    obtain ⟨⟨r, c⟩, n₁, hr, h⟩ := state_bind_ok h
    obtain ⟨⟨rest, circuits⟩, n₂, hrest, h⟩ := state_bind_ok h
    cases state_pure_ok h
    exact .cons (FunctionSplit.splitBody_kept hr) (ih hrest)

theorem layOutCalls_kept {ss rs : List FunctionSplit} {cs ks : List Circuit}
    (h : layOutCalls ss cs = .ok (rs, ks)) : FunctionSplit.Kept ss rs := by
  obtain ⟨laidOut, _, h⟩ := except_bind_ok h
  cases h
  exact List.forall₂_map_right_iff.mpr (List.forall₂_same.mpr fun s _ => ⟨⟨rfl, rfl, rfl⟩, rfl, rfl⟩)

theorem FunctionDef.addParam_kept {f g : FunctionDef} {type : AnnTy} {name storage : String} {n m : Nat}
    (h : f.addParam type name storage n = .ok (g, m)) : f.SameMarks g := by
  obtain ⟨id, n₁, _, h⟩ := state_bind_ok h
  cases state_pure_ok h
  exact ⟨⟨rfl, rfl, rfl⟩, rfl, rfl⟩

theorem FunctionDef.withSections_kept {f g : FunctionDef} {c : Circuit} {results : List LocalVar} {n m : Nat}
    (h : f.withSections c results n = .ok (g, m)) : f.SameMarks g := by
  obtain ⟨f₁, n₁, h₁, h⟩ := state_bind_ok h
  obtain ⟨f₂, n₂, h₂, h⟩ := state_bind_ok h
  obtain ⟨f₃, n₃, h₃, h⟩ := state_bind_ok h
  obtain ⟨f₄, n₄, h₄, h⟩ := state_bind_ok h
  obtain ⟨data, n₅, _, h⟩ := state_bind_ok h
  obtain ⟨loads, n₆, _, h⟩ := state_bind_ok h
  obtain ⟨stores, n₇, _, h⟩ := state_bind_ok h
  cases state_pure_ok h
  have before := (((addParam_kept h₁).trans (addParam_kept h₂)).trans (addParam_kept h₃)).trans (addParam_kept h₄)
  exact ⟨⟨before.id, before.name, before.modifiers⟩, before.needsProof, before.needsProofExternally⟩

theorem addSections_kept {circuits : List Circuit} {ss rs : List FunctionSplit} {structs : List StructDef}
    {n m : Nat} (h : addSections circuits ss n = .ok ((rs, structs), m)) : FunctionSplit.Kept ss rs := by
  induction ss generalizing n rs structs m with
  | nil =>
    cases state_pure_ok h
    exact .nil
  | cons s ss ih =>
    unfold addSections at h
    split at h
    · obtain ⟨⟨rest, _⟩, n₁, hrest, h⟩ := state_bind_ok h
      cases state_pure_ok h
      exact .cons (.refl _) (ih hrest)
    · cases hc : Circuit.find? circuits s.function.id with
      | none =>
        rw [hc] at h
        cases h
      | some c =>
        rw [hc] at h
        simp only at h
        split at h
        · cases h
        · obtain ⟨struct, n₁, _, h⟩ := state_bind_ok h
          obtain ⟨f, n₂, hf, h⟩ := state_bind_ok h
          obtain ⟨⟨rest, _⟩, n₃, hrest, h⟩ := state_bind_ok h
          cases state_pure_ok h
          exact .cons (FunctionDef.withSections_kept hf) (ih hrest)

/-- The external part is called like the function, and it can be called from outside. -/
theorem FunctionSplit.wrapper_external {context : SplitContext} {symbols : Symbols} {s : FunctionSplit}
    {params : List Param} {c own : Circuit} {w : FunctionDef} {n m : Nat}
    (h : s.wrapper context symbols params c n = .ok ((w, own), m)) :
    w.name = s.function.name ∧ w.canBeExternal := by
  obtain ⟨params, n₁, _, h⟩ := state_bind_ok h
  obtain ⟨returns, n₂, _, h⟩ := state_bind_ok h
  obtain ⟨results, n₃, _, h⟩ := state_bind_ok h
  obtain ⟨id, n₄, _, h⟩ := state_bind_ok h
  obtain ⟨⟨body, own⟩, n₅, _, h⟩ := state_bind_ok h
  obtain ⟨w₁, n₆, h₁, h⟩ := state_bind_ok h
  obtain ⟨w₂, n₇, h₂, h⟩ := state_bind_ok h
  cases state_pure_ok h
  have whole := (FunctionDef.addParam_kept h₁).trans (FunctionDef.addParam_kept h₂)
  refine ⟨whole.name, ?_⟩
  rw [whole.canBeExternal]
  unfold FunctionDef.canBeExternal
  simp only
  split <;> split <;> decide

theorem splitParts_external {context : SplitContext} {symbols : Symbols} {params : Nat → List Param}
    {ss : List FunctionSplit} {parts : List (FunctionDef × FunctionDef)} {cs ks : List Circuit} {n m : Nat}
    (h : splitParts context symbols params ss cs n = .ok ((parts, ks), m)) :
    List.Forall₂ (fun s p => p.1.name = s.function.name ∧ p.1.canBeExternal ∧ p.2 = FunctionSplit.internal s.function) ss parts := by
  induction ss generalizing cs n parts ks m with
  | nil =>
    cases state_pure_ok h
    exact .nil
  | cons s ss ih =>
    unfold splitParts at h
    cases hc : Circuit.find? cs s.function.id with
    | none =>
      rw [hc] at h
      cases h
    | some c =>
      rw [hc] at h
      obtain ⟨⟨w, own⟩, n₁, hw, h⟩ := state_bind_ok h
      obtain ⟨⟨rest, _⟩, n₂, hrest, h⟩ := state_bind_ok h
      cases state_pure_ok h
      obtain ⟨name, offered⟩ := FunctionSplit.wrapper_external hw
      exact .cons ⟨name, offered, rfl⟩ (ih hrest)

/-- What splitting makes of the functions of a contract: those without a proof stay, each of the others gets
an external part of its name. -/
structure Contract.SplitInto (c d : Contract) : Prop where
  name : d.name = c.name
  kept : ∀ f ∈ c.functions, f.isConstructor = false → f.facts.needsProofExternally = false →
    ∃ g ∈ d.functions, f.SameMarks g
  proved : ∀ f ∈ c.functions, f.isConstructor = false → f.facts.needsProofExternally = true →
    ∃ g ∈ d.functions, g.name = f.name ∧ g.canBeExternal

theorem Contract.split_into {o : Options} {unit : SourceUnit} {symbols : Symbols} {cs ks : List Circuit}
    {c d : Contract} {n m : Nat} (h : c.split o unit symbols cs n = .ok ((d, ks), m)) : c.SplitInto d := by
  unfold Contract.split at h
  obtain ⟨whole, n₁, hwhole, h⟩ := state_bind_ok h
  obtain ⟨⟨state, symbols'⟩, n₂, _, h⟩ := state_bind_ok h
  obtain ⟨⟨bodies₁, circuits₁⟩, n₃, hbodies, h⟩ := state_bind_ok h
  obtain ⟨circuits₂, n₄, _, h⟩ := state_bind_ok h
  obtain ⟨⟨bodies₂, circuits₃⟩, n₅, hlay, h⟩ := state_bind_ok h
  obtain ⟨⟨bodies, structs⟩, n₆, hsections, h⟩ := state_bind_ok h
  obtain ⟨registries, n₇, _, h⟩ := state_bind_ok h
  obtain ⟨verifiers, n₈, _, h⟩ := state_bind_ok h
  obtain ⟨⟨parts, circuits₄⟩, n₉, hparts, h⟩ := state_bind_ok h
  cases state_pure_ok h
  have all : List.Forall₂ (fun f s => f.SameMarks s.function) c.allFunctions bodies := by
    have first : List.Forall₂ (fun f (s : FunctionSplit) => f.SameMarks s.function) c.allFunctions whole := by
      refine state_mapM_ok (fun f n s m hs => ?_) hwhole
      obtain ⟨results, n', _, hs⟩ := state_bind_ok hs
      cases state_pure_ok hs
      exact .refl f
    have signed : FunctionSplit.Kept whole (whole.map (FunctionSplit.encrypted o)) :=
      List.forall₂_map_right_iff.mpr (List.forall₂_same.mpr fun s _ => ⟨⟨rfl, rfl, rfl⟩, rfl, rfl⟩)
    have rest : FunctionSplit.Kept whole bodies :=
      ((signed.trans (splitBodies_kept hbodies)).trans (layOutCalls_kept (state_lift_ok hlay))).trans
        (addSections_kept hsections)
    exact forall₂_comp (fun _ _ _ h h' => h.trans h') first rest
  have outer := splitParts_external hparts
  refine ⟨rfl, fun f hf hc hx => ?_, fun f hf hc hx => ?_⟩ <;>
    obtain ⟨s, hs, same⟩ := exists_mem_of_forall₂_left all (List.mem_append_right c.constructors hf)
  · refine ⟨s.function, List.mem_append_left _ (List.mem_filter.mpr ⟨List.mem_map.mpr ⟨s, ?_, rfl⟩, ?_⟩), same⟩
    · exact List.mem_filter.mpr ⟨hs, by rw [same.needsProofExternally, hx]; rfl⟩
    · unfold FunctionDef.isConstructor at hc ⊢
      rw [same.name, hc]
      rfl
  · have hs : s ∈ bodies.filter fun s => s.function.facts.needsProofExternally :=
      List.mem_filter.mpr ⟨hs, same.needsProofExternally.trans hx⟩
    obtain ⟨p, hp, hname, hexternal, _⟩ := exists_mem_of_forall₂_left outer hs
    refine ⟨p.1, List.mem_append_right _ (List.mem_flatMap.mpr ⟨p, hp, ?_⟩), hname.trans same.name, hexternal⟩
    have named : p.1.isConstructor = false := by
      unfold FunctionDef.isConstructor at hc ⊢
      rw [hname, same.name, hc]
    simp [named]

/-- Splitting offers a function if it could be called from outside or needs a proof then. -/
theorem Contract.SplitInto.offers_iff {c d : Contract} (h : c.SplitInto d)
    (unique : (d.functions.map FunctionDef.title).Nodup) {f : FunctionDef} (hf : f ∈ c.functions)
    (hc : f.isConstructor = false) :
    d.Offers f.title ↔ f.canBeExternal ∨ f.facts.needsProofExternally := by
  have name : f.name = some f.title := FunctionDef.name_of_title hc
  cases hx : f.facts.needsProofExternally with
  | true =>
    obtain ⟨g, hg, hname, hexternal⟩ := h.proved f hf hc hx
    exact ⟨fun _ => .inr rfl, fun _ => ⟨g, hg, hname.trans name, hexternal⟩⟩
  | false =>
    obtain ⟨g, hg, same⟩ := h.kept f hf hc hx
    constructor
    · rintro ⟨k, hk, hname, hexternal⟩
      -- The function that is offered can only be the one that was kept.
      have title : k.title = g.title := by
        rw [FunctionDef.title_of_name hname, FunctionDef.title_of_name (same.name.trans name)]
      have : k = g := List.inj_on_of_nodup_map unique hk hg title
      exact .inl (same.canBeExternal ▸ this ▸ hexternal)
    · rintro (hexternal | hx)
      · exact ⟨g, hg, same.name.trans name, same.canBeExternal.trans hexternal⟩
      · cases hx

/-! ## Whole programs -/

theorem splitContracts_into {o : Options} {unit : SourceUnit} {symbols : Symbols} {cs ds : List Contract}
    {ks ls : List Circuit} {n m : Nat} (h : splitContracts o unit symbols cs ks n = .ok ((ds, ls), m)) :
    List.Forall₂ Contract.SplitInto cs ds := by
  induction cs generalizing ks n ds ls m with
  | nil =>
    cases state_pure_ok h
    exact .nil
  | cons c cs ih =>
    obtain ⟨⟨d, circuits⟩, n₁, hd, h⟩ := state_bind_ok h
    obtain ⟨⟨rest, _⟩, n₂, hrest, h⟩ := state_bind_ok h
    cases state_pure_ok h
    exact .cons (Contract.split_into hd) (ih hrest)

theorem SourceUnit.split_offers {u v : SourceUnit} {o : Options} {circuits : List Circuit} {next n : Nat}
    (h : u.split o next = .ok (v, circuits, n)) :
    List.Forall₂ (fun c d => d.name = c.name ∧ ∀ f ∈ c.functions, f.isConstructor = false →
      (d.Offers f.title ↔ f.canBeExternal ∨ f.facts.needsProofExternally)) u.contracts v.contracts := by
  unfold SourceUnit.split at h
  obtain ⟨⟨⟨contracts, _⟩, n₁⟩, hsplit, h⟩ := except_bind_ok h
  obtain ⟨⟨w, n₂⟩, hlink, h⟩ := except_bind_ok h
  cases h
  have parts : List.Forall₂ Contract.SplitInto u.contracts contracts := splitContracts_into hsplit
  have linked := (List.forall₂_and_left _ _).mpr ⟨SourceUnit.link_nodup hlink, SourceUnit.link_pointwise FunctionDef.sameMarks_coarse hlink⟩
  refine forall₂_comp (fun c k d hc hd => ⟨hd.2.name.trans hc.name, fun f hf hn => ?_⟩) parts linked
  have signature : k.Pointwise FunctionDef.SameSignature d := hd.2.mono fun _ _ h => h.toSameSignature
  rw [signature.offers_iff, hc.offers_iff hd.1 hf hn]

/-- The program is not marked yet. -/
def SourceUnit.Unmarked (u : SourceUnit) : Prop :=
  ∀ c ∈ u.contracts, ∀ f ∈ c.functions, f.facts.needsProofExternally = false

instance (u : SourceUnit) : Decidable u.Unmarked :=
  inferInstanceAs (Decidable (∀ c ∈ u.contracts, ∀ f ∈ c.functions, f.facts.needsProofExternally = false))

theorem SourceUnit.Marks.consistent {u v : SourceUnit} (h : u.Marks v) (fresh : u.Unmarked) :
    ∀ c ∈ v.contracts, ∀ f ∈ c.functions, f.Consistent := by
  intro d hd g hg
  obtain ⟨c, hc, same⟩ := exists_mem_of_forall₂_right h hd
  obtain ⟨f, hf, marked⟩ := exists_mem_of_forall₂_right same.functions hg
  exact marked.consistent (fresh c hc f hf)

/-- A program is compiled by splitting what the passes make of it. -/
theorem SourceUnit.compile_split {u : SourceUnit} {next : Nat} {o : Options} {t : Transcript} {r : Compilation}
    (h : (u.compile next o t).2 = .ok r) :
    ∃ t p m, (u.process next o .all t).2 = .ok p ∧ r.source = p.unit ∧
      (r.source.markHoms o).split o p.next = .ok (r.code, r.circuits, m) := by
  unfold SourceUnit.compile at h
  generalize hp : u.process next o .all (t.mapLog (·.push "compile")) = w at h
  obtain ⟨t₁, x⟩ := w
  cases x with
  | error e => cases h
  | ok p =>
    simp only at h
    obtain ⟨t₂, hr⟩ := Transcript.step_result o "transform" "Transforming zkay -> public contract" t₁ fun t =>
      (t, (p.unit.markHoms o).split o p.next)
    generalize t₁.step o "transform" "Transforming zkay -> public contract"
      (fun t => (t, (p.unit.markHoms o).split o p.next)) = w at h hr
    obtain ⟨t₃, x⟩ := w
    cases x with
    | error e => cases h
    | ok result =>
      obtain ⟨code, circuits, n⟩ := result
      cases h
      exact ⟨_, p, n, congrArg Prod.snd hp, rfl, hr.symm⟩

theorem SourceUnit.compile_ok {u : SourceUnit} {next : Nat} {o : Options} {t : Transcript} {r : Compilation}
    (h : (u.compile next o t).2 = .ok r) :
    (∃ t p, (u.process next o .all t).2 = .ok p ∧ r.source = p.unit) ∧
      ∃ n m, (r.source.markHoms o).split o n = .ok (r.code, r.circuits, m) := by
  obtain ⟨t, p, m, hp, source, split⟩ := compile_split h
  exact ⟨⟨t, p, hp, source⟩, p.next, m, split⟩

/-- The public code offers the function exactly if it could be called from outside. -/
def FunctionDef.VisibleAsDeclared (f : FunctionDef) (code : Contract) : Prop :=
  code.Offers f.title ↔ f.canBeExternal = true

instance (f : FunctionDef) (code : Contract) : Decidable (f.VisibleAsDeclared code) :=
  inferInstanceAs (Decidable (_ ↔ _))

/-- What a compiled program offers: the functions that could be called from outside and those that need a
proof. So the declared visibility of a function is respected exactly if it can be called from outside or
needs no proof. -/
theorem compile_offers_iff {u : SourceUnit} {next : Nat} {o : Options} {t : Transcript} {r : Compilation}
    (fresh : u.Unmarked) (h : (u.compile next o t).2 = .ok r) :
    u.Pointwise FunctionDef.SameSignature r.source ∧
    List.Forall₂ (fun c d => d.name = c.name ∧ ∀ f ∈ c.functions, f.isConstructor = false →
      (d.Offers f.title ↔ f.canBeExternal ∨ f.facts.needsProof) ∧
      (f.VisibleAsDeclared d ↔ (f.facts.needsProof → f.canBeExternal)))
      r.source.contracts r.code.contracts := by
  obtain ⟨⟨t', p, hp, hsource⟩, n, m, hsplit⟩ := SourceUnit.compile_ok h
  have marks : u.Marks r.source := hsource ▸ SourceUnit.process_marked rfl hp
  refine ⟨marks.mono fun _ _ h => h.toSameSignature, ?_⟩
  have source := (List.forall₂_and_left _ _).mpr ⟨marks.consistent fresh, r.source.markHoms_keeps o⟩
  refine forall₂_comp (fun c k d hc hd => ⟨hd.1.trans hc.2.name, fun f hf hn => ?_⟩) source
    (SourceUnit.split_offers hsplit)
  obtain ⟨g, hg, same⟩ := exists_mem_of_forall₂_left hc.2.functions hf
  have consistent := hc.1 f hf
  have offers : d.Offers f.title ↔ f.canBeExternal ∨ f.facts.needsProof := by
    have named : g.isConstructor = false := by
      unfold FunctionDef.isConstructor at hn ⊢
      rw [same.name, hn]
    have title : g.title = f.title := by
      unfold FunctionDef.title
      rw [same.name]
    rw [← title, hd.2 g hg named, same.canBeExternal, same.needsProofExternally]
    constructor
    · exact fun h => h.elim .inl fun h => (consistent.inside h).symm
    · exact Or.imp_right consistent.outside
  refine ⟨offers, ?_⟩
  unfold FunctionDef.VisibleAsDeclared
  rw [offers]
  tauto

/-- An internal function that adds one to a private number, next to a public one without private code. -/
def exposing : SourceUnit :=
  let bump := FunctionDef.sketch 101 "bump" "internal" [.sketch 102 AnnTy.uint.mine "x"]
    [.declareAt 103 AnnTy.uint.mine "y" (.applyAt 104 .add [.nameAt 106 "x", .literalAt 107 1])]
  .sketch 100 "Counter" [] [bump, .sketch 108 "idle" "public" [] []]

/-- The program compiles, and the internal function is offered. -/
theorem exposing_compiled : ∃ r, (exposing.compile 110 .default .empty).2 = .ok r ∧
    ∃ c ∈ r.source.contracts, ∃ d ∈ r.code.contracts, d.name = c.name ∧
      ∃ f ∈ c.functions, f.isConstructor = false ∧ f.canBeExternal = false ∧ d.Offers f.title := by
  obtain ⟨r, hr, h⟩ := exists_ok_of_any (x := (exposing.compile 110 .default .empty).2)
    (p := fun r => decide (∃ c ∈ r.source.contracts, ∃ d ∈ r.code.contracts, d.name = c.name ∧
      ∃ f ∈ c.functions, f.isConstructor = false ∧ f.canBeExternal = false ∧ d.Offers f.title))
    (by decide +kernel)
  exact ⟨r, hr, of_decide_eq_true h⟩

theorem exposing_offers_iff : ∃ r, (exposing.compile 110 .default .empty).2 = .ok r ∧
    exposing.Pointwise FunctionDef.SameSignature r.source ∧
    List.Forall₂ (fun c d => d.name = c.name ∧ ∀ f ∈ c.functions, f.isConstructor = false →
      (d.Offers f.title ↔ f.canBeExternal ∨ f.facts.needsProof) ∧
      (f.VisibleAsDeclared d ↔ (f.facts.needsProof → f.canBeExternal)))
      r.source.contracts r.code.contracts := by
  obtain ⟨r, hr, _⟩ := exposing_compiled
  exact ⟨r, hr, compile_offers_iff (by decide) hr⟩

/-- The internal function of the program is offered. -/
theorem exposing_not_visibleAsDeclared : ∃ r, (exposing.compile 110 .default .empty).2 = .ok r ∧
    ∃ c ∈ r.source.contracts, ∃ d ∈ r.code.contracts, d.name = c.name ∧
      ∃ f ∈ c.functions, f.isConstructor = false ∧ f.canBeExternal = false ∧ d.Offers f.title :=
  exposing_compiled

end Shroud
