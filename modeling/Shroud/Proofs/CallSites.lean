import Shroud.Proofs.Exposure
import Shroud.Proofs.Sections

/-!
# What calls are told

Functions with a circuit share the arrays of circuit values, and each of them hands on to its callees where their sections
start.

**Sites.** `Circuit.sites` are the calls of a circuit together with these arguments.

**Sections.** A function that has sections first checks that the arrays are long enough for them. Calls in its body get the
arguments of their sites (`FunctionDef.InSections`).
-/

namespace Shroud

open Circuit

/-! ## Sites -/

section Sites

variable {cs ds : List Circuit} {c d : Circuit}

/-- The calls of a circuit, given by their numbers, and the arguments that tell callees where their sections start. -/
def Circuit.sites (cs : List Circuit) (c : Circuit) : List (Nat × List Expr) :=
  List.zipWith (fun node p => (node, sectionArgs p.input p.output)) (c.calls.map CircuitCall.node) (c.places cs)

/-- The sites of the circuit of a function. -/
def Circuit.sitesAt (cs : List Circuit) (function : Nat) : List (Nat × List Expr) :=
  ((find? cs function).map (sites cs)).getD []

theorem Circuit.layOut_sites (cs : List Circuit) (c : Circuit) : (c.layOut cs).2.1 = c.sites cs := by
  rw [layOut_eq, sites, List.zipWith_map_left]

theorem Circuit.sites_congr (nodes : d.calls.map CircuitCall.node = c.calls.map CircuitCall.node)
    (callees : d.calls.map CircuitCall.callee = c.calls.map CircuitCall.callee) (own : d.ownSizes = c.ownSizes)
    (h : ∀ call ∈ c.calls, sizesAt ds call.callee = sizesAt cs call.callee) : d.sites ds = c.sites cs := by
  rw [sites, nodes, places_congr callees own h, sites]

/-- Calls are still the same ones once they are laid out. -/
theorem Circuit.layOut_calls (cs : List Circuit) (c : Circuit) :
    (c.layOut cs).1.calls.map CircuitCall.node = c.calls.map CircuitCall.node ∧
      (c.layOut cs).1.calls.map CircuitCall.callee = c.calls.map CircuitCall.callee ∧
      (c.layOut cs).1.calls.map CircuitCall.offset = (c.places cs).map CircuitSizes.secret := by
  have told (calls : List CircuitCall) (places : List CircuitSizes) (h : places.length = calls.length) :
      let laidOut := List.zipWith (fun (call : CircuitCall) (p : CircuitSizes) => { call with offset := p.secret }) calls
        places
      laidOut.map CircuitCall.node = calls.map CircuitCall.node ∧
        laidOut.map CircuitCall.callee = calls.map CircuitCall.callee ∧
        laidOut.map CircuitCall.offset = places.map CircuitSizes.secret := by
    induction calls generalizing places with
    | nil =>
      rw [List.length_eq_zero_iff.mp h]
      exact ⟨rfl, rfl, rfl⟩
    | cons call calls ih =>
      cases places with
      | nil => cases h
      | cons p places =>
        obtain ⟨nodes, callees, offsets⟩ := ih places (Nat.succ.inj h)
        exact ⟨congrArg (call.node :: ·) nodes, congrArg (call.callee :: ·) callees, congrArg (p.secret :: ·) offsets⟩
  rw [layOut_eq]
  refine told _ _ ?_
  unfold places
  rw [placesFrom_length, List.length_map]

/-- Laying out the calls of a circuit does not change its sites. -/
theorem Circuit.sites_layOut (h : ∀ f, sizesAt ds f = sizesAt cs f) : (c.layOut cs).1.sites ds = c.sites cs := by
  obtain ⟨nodes, callees, _⟩ := layOut_calls cs c
  have own : (c.layOut cs).1.ownSizes = c.ownSizes := by
    rw [layOut_eq]
    rfl
  exact sites_congr nodes callees own fun call _ => h call.callee

end Sites

/-! ## Functions with sections -/

/-- The function insists on arrays that are long enough for its sections, and the calls in its body get these
arguments. -/
def FunctionDef.InSections (f : FunctionDef) (sizes : CircuitSizes) (sites : List (Nat × List Expr)) : Prop :=
  ∃ (b : Block) (before after : List Stmt), f.body.stmts =
    [requireSection Generated.outputs sizes.output, requireSection Generated.inputs sizes.input] ++ before ++
      (b.mapExprs (Expr.addArgs sites)).stmts ++ after

section Functions

variable {c : Circuit} {f g : FunctionDef} {n m : Nat}

theorem FunctionDef.addParam_body {type : AnnTy} {name storage : String}
    (h : f.addParam type name storage n = .ok (g, m)) : g.body = f.body := by
  obtain ⟨id, n₁, _, h⟩ := state_bind_ok h
  cases state_pure_ok h
  rfl

/-- The body comes after the checks, and something may be added around it. -/
theorem FunctionDef.withSections_checks {results : List LocalVar} (h : f.withSections c results n = .ok (g, m)) :
    ∃ before after, g.body.stmts =
      [requireSection Generated.outputs c.sizes.output, requireSection Generated.inputs c.sizes.input] ++ before ++
        f.body.stmts ++ after := by
  obtain ⟨f₁, n₁, h₁, h⟩ := state_bind_ok h
  obtain ⟨f₂, n₂, h₂, h⟩ := state_bind_ok h
  obtain ⟨f₃, n₃, h₃, h⟩ := state_bind_ok h
  obtain ⟨f₄, n₄, h₄, h⟩ := state_bind_ok h
  obtain ⟨data, n₅, _, h⟩ := state_bind_ok h
  obtain ⟨loads, n₆, _, h⟩ := state_bind_ok h
  obtain ⟨stores, n₇, _, h⟩ := state_bind_ok h
  cases state_pure_ok h
  have same : f₄.body = f.body :=
    (addParam_body h₄).trans ((addParam_body h₃).trans ((addParam_body h₂).trans (addParam_body h₁)))
  rw [same]
  simp only [List.append_assoc]
  exact ⟨data ++ (_ ++ _), _ ++ _, by simp only [List.append_assoc]; rfl⟩

/-- Functions that need a proof get sections for their circuits. -/
theorem addSections_checks {circuits : List Circuit} {ss rs : List FunctionSplit} {structs : List StructDef}
    (h : addSections circuits ss n = .ok ((rs, structs), m)) :
    List.Forall₂ (fun s r => s.function.SameMarks r.function ∧ (s.function.facts.needsProof = true → ∃ c before after,
      find? circuits s.function.id = some c ∧ r.function.body.stmts =
        [requireSection Generated.outputs c.sizes.output, requireSection Generated.inputs c.sizes.input] ++ before ++
          s.function.body.stmts ++ after)) ss rs := by
  induction ss generalizing n rs structs m with
  | nil =>
    cases state_pure_ok h
    exact .nil
  | cons s ss ih =>
    unfold addSections at h
    split at h
    · rename_i unproved
      obtain ⟨⟨rest, _⟩, n₁, hrest, h⟩ := state_bind_ok h
      cases state_pure_ok h
      refine .cons ⟨.refl _, fun needs => ?_⟩ (ih hrest)
      rw [needs] at unproved
      cases unproved
    · cases hc : find? circuits s.function.id with
      | none =>
        rw [hc] at h
        cases h
      | some c =>
        rw [hc] at h
        simp only at h
        split at h
        · cases h
        · obtain ⟨struct, n₁, _, h⟩ := state_bind_ok h
          obtain ⟨f, n₂, hf, h⟩ := state_bind_ok h
          obtain ⟨⟨rest, _⟩, n₃, hrest, h⟩ := state_bind_ok h
          cases state_pure_ok h
          obtain ⟨before, after, stmts⟩ := FunctionDef.withSections_checks hf
          exact .cons ⟨FunctionDef.withSections_kept hf, fun _ => ⟨c, before, after, hc, stmts⟩⟩ (ih hrest)

end Functions

/-! ## External parts -/

/-- The code insists on exactly as many words of outputs, and makes an array for the words of inputs. -/
def Block.Allocates (b : Block) (sizes : CircuitSizes) : Prop :=
  ∃ id rest, b.stmts =
    [.require default (.applyOp .eq
      [.dot ((Expr.name Generated.outputs).withType (.plain wordArray)) "length", .literal sizes.output]),
    .declare default (.stored id (.plain wordArray) Generated.inputs)
      (some (.new { Info.synthetic with type := some (.plain wordArray) } [.literal sizes.input]))] ++ rest

/-- The code calls the function and tells it that its sections start at these places of the arrays. -/
def Block.HandsOn (b : Block) (function : Nat) (place : CircuitSizes) : Prop :=
  ∃ name args offset, ∃ results : Expr,
    let call := Expr.call .synthetic (.ident .synthetic (.plain name) (some (.decl .function function)))
      (args ++ [.name Generated.inputs, .literal place.input, .name Generated.outputs, .literal place.output]) offset none
    Stmt.eval default call ∈ b.stmts ∨ Stmt.set results call ∈ b.stmts

end Shroud
