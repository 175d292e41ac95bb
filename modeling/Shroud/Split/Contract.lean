import Shroud.Privacy.UsedHoms
import Shroud.Split.Wrapper

/-!
# Splitting contracts

A contract with private state becomes a contract of public code together with the circuits of its functions.

**Order.** The bodies of all functions are split first, because only then the sizes of the circuits and the
needed keys are known. The layout of circuit values, the parts of split functions and the contracts for keys
and verifiers follow.
-/

namespace Shroud

open SplitM

/-- Run an activity of the splitter. -/
def SplitM.runWith {α : Type} (context : SplitContext) (symbols : Symbols) (c : Circuit) (activity : SplitM α) :
    NumberM (α × Circuit) := fun next =>
  match (activity.run context).run ⟨c, [], symbols, next⟩ with
  | (.ok a, w) => .ok ((a, w.circuit), w.next)
  | (.error e, _) => .error e

/-- A function on its way: with the variables for its results. -/
structure FunctionSplit where
  function : FunctionDef
  results : List LocalVar

/-- The owners whose keys are known in advance: the sender and final addresses. -/
def Contract.knownOwners (c : Contract) : List Label :=
  .me :: (c.stateVars.filter fun v => v.type.isAddress && v.keywords.contains "final").map fun v =>
    .var .stateVar v.id v.name

/-- How deep the activities of the splitter can refer to each other. Every function can be part of a circuit
within another one, but none within itself. -/
def Contract.splitDepth (c : Contract) : Nat :=
  let sizes := c.allFunctions.map fun f => f.body.nodes.length
  let state := c.state.foldl (fun n v => n + v.nodes.length) 0
  (c.allFunctions.length + 2) * (8 * (sizes.foldl max state) + 16)

/-- The variables that receive the results of a function. -/
def FunctionDef.resultVars (f : FunctionDef) : NumberM (List LocalVar) :=
  ((List.range f.returns.length).zip f.returns).mapM fun (n, p) => do
    return ⟨← NumberM.fresh, [], p.type, Generated.returned ++ "_" ++ toString n, p.storage⟩

/-- The state variable through which a helper contract is reached. Its address is filled in later. -/
def helperVar (contract : String) : NumberM StateItem := do
  let type := Ty.named .contract [contract] none
  return .var ⟨← NumberM.fresh, ["public", "constant"], .plain type, Generated.instance_ contract,
    some (.cast .synthetic type (.literal 0) false)⟩

/-- Give all parameters new numbers. -/
def Param.renumber (p : Param) : NumberM Param := do return { p with id := ← NumberM.fresh }

def LocalVar.renumber (v : LocalVar) : NumberM LocalVar := do return { v with id := ← NumberM.fresh }

namespace FunctionSplit

/-- The signature with ciphertexts in place of private values. -/
def encrypted (o : Options) (s : FunctionSplit) : FunctionSplit :=
  ⟨{ s.function with
      params := s.function.params.map (Param.encrypted o)
      returns := s.function.returns.map (Param.encrypted o) },
    s.results.map (LocalVar.encrypted o)⟩

/-- Split the body. -/
def splitBody (context : SplitContext) (symbols : Symbols) (depth : Nat) (place : LinkContext)
    (s : FunctionSplit) (c : Circuit) : NumberM (FunctionSplit × Circuit) := do
  let body ← fun next =>
    let (b, next) := s.function.body.renumber.run next
    .ok (b, next)
  let b : BodySplit := ⟨.bounded depth, s.function.facts.needsProof, s.function.title, s.results⟩
  let (body, c) ← runWith context symbols c (body.split b place)
  return ({ s with function := { s.function with body := body } }, c)

/-- The internal part: it can only be called from inside the contract. -/
def internal (f : FunctionDef) : FunctionDef :=
  { f with
    name := some (Generated.internal f.title true)
    modifiers := (f.modifiers.filter (· ≠ "payable")).map fun m => if m = "public" then "internal" else m
    facts := { f.facts with needsProofExternally := false } }

/-- The external part of a function and its circuit, given the parameters it takes and the circuit of the
internal part. -/
def wrapper (context : SplitContext) (symbols : Symbols) (s : FunctionSplit) (params : List Param)
    (circuit : Circuit) : NumberM (FunctionDef × Circuit) := do
  let f := s.function
  let storage := if f.isConstructor then "memory" else "calldata"
  let moved (p : Param) : Param :=
    if !f.isConstructor && p.storage = some "memory" then { p with storage := some "calldata" } else p
  let params ← params.mapM fun p => do return moved (← p.renumber)
  let returns ← f.returns.mapM Param.renumber
  let results ← s.results.mapM LocalVar.renumber
  let id ← NumberM.fresh
  let own := circuit.wrapper f.facts.needsProof id
  let (body, own) ← runWith context symbols own (wrapperBody (internal f) params results)
  let w : FunctionDef :=
    { id, name := f.name, params, returns, body, pos := .unknown
      modifiers := (if f.isConstructor then ["public"] else ["external"]) ++
        (if f.isPayable then ["payable"] else [])
      facts := { FunctionFacts.initial with
        calls := includeOnce f.facts.calls f.id, needsProof := true, needsProofExternally := true
        homs := f.facts.homs, backends := f.facts.backends } }
  let w ← w.addParam (.plain wordArray) Generated.outputs storage
  let w ← w.addParam (.plain wordArray) Generated.proof storage
  return (w, own)

end FunctionSplit

/-- Public code of a state variable. -/
def StateItem.split (context : SplitContext) (symbols : Symbols) (depth : Nat) (place : LinkContext) :
    StateItem → NumberM StateItem
  | .var v => do
    let activity := v.init.mapM (Splitter.bounded depth).publicly
    let ((init, _), _) ← runWith context symbols (.empty 0) (working place none activity)
    return .var { v.encrypted context.options with init := init }
  | _ => throw .undefinedState

/-- Public code of all state variables. Each one is known as public code from then on. -/
def splitState (context : SplitContext) (depth : Nat) (place : LinkContext) :
    List StateItem → Symbols → NumberM (List StateItem × Symbols)
  | [], symbols => return ([], symbols)
  | i :: is, symbols => do
    let i ← i.split context symbols depth place
    let symbols := match i with
      | .var v => symbols.setType v.id v.type
      | _ => symbols
    let (is, symbols) ← splitState context depth place is symbols
    return (i :: is, symbols)

/-- The parameters are known with the types they have in public code. -/
def Symbols.setParams (s : Symbols) (ps : List Param) : Symbols := ps.foldl (fun s p => s.setType p.id p.type) s

/-- Split all bodies, one after the other; functions without a circuit leave none behind. -/
def splitBodies (context : SplitContext) (symbols : Symbols) (depth : Nat) (place : FunctionDef → LinkContext) :
    List FunctionSplit → List Circuit → NumberM (List FunctionSplit × List Circuit)
  | [], circuits => return ([], circuits)
  | s :: ss, circuits => do
    let c := (Circuit.find? circuits s.function.id).getD (.empty s.function.id)
    let (s, c) ← s.splitBody context symbols depth (place s.function) c
    let (ss, circuits) ← splitBodies context symbols depth place ss (Circuit.update circuits c)
    return (s :: ss, circuits)

/-- Tell all callees where their sections start. -/
def layOutCalls (ss : List FunctionSplit) (circuits : List Circuit) :
    Except Error (List FunctionSplit × List Circuit) := do
  let proved := ss.filter fun s => s.function.facts.needsProof
  let laidOut ← proved.mapM fun s => do
    match Circuit.find? circuits s.function.id with
    | none => .error .undefinedState
    | some c =>
      let (c, sites, used) := c.layOut circuits
      if c.called = some used then return (c, sites)
      else .error (.defect (.sizesInconsistent s.function.title))
  let sites := laidOut.flatMap (·.2)
  let extended (s : FunctionSplit) : FunctionSplit :=
    { s with function := { s.function with body := s.function.body.mapExprs (Expr.addArgs sites) } }
  return (ss.map extended, (laidOut.map (·.1)).foldl Circuit.update circuits)

/-- Add the sections of circuit values to the functions that have a circuit, and collect the types that hold
these values. -/
def addSections (circuits : List Circuit) :
    List FunctionSplit → NumberM (List FunctionSplit × List StructDef)
  | [] => return ([], [])
  | s :: ss => do
    if !s.function.facts.needsProof then
      let (ss, structs) ← addSections circuits ss
      return (s :: ss, structs)
    else match Circuit.find? circuits s.function.id with
      | none => throw .undefinedState
      | some c =>
        if !c.sizes.isPositive then throw (.defect (.sizesDisagree s.function.title))
        let struct ← (if c.needsData then do return [← s.function.dataStruct c] else return [])
        let f ← s.function.withSections c s.results
        let (ss, structs) ← addSections circuits ss
        return ({ s with function := f } :: ss, struct ++ structs)

/-- Split functions into their external and internal parts. The circuit of an internal part that needs no
proof of its own disappears; an internal circuit shares its keys with the external one. -/
def splitParts (context : SplitContext) (symbols : Symbols) (params : Nat → List Param) :
    List FunctionSplit → List Circuit → NumberM (List (FunctionDef × FunctionDef) × List Circuit)
  | [], circuits => return ([], circuits)
  | s :: ss, circuits =>
    match Circuit.find? circuits s.function.id with
    | none => throw .undefinedState
    | some c => do
      let (w, own) ← s.wrapper context symbols (params s.function.id) c
      let rest := if s.function.facts.needsProof
        then Circuit.update circuits { c with verifier := none, keys := own.keys, secretKeys := own.secretKeys }
        else circuits.filter fun k => k.function != s.function.id
      let (parts, circuits) ← splitParts context symbols params ss (rest ++ [own])
      return ((w, FunctionSplit.internal s.function) :: parts, circuits)

/-- State variables under headings; a contract without helpers needs none. -/
def headedState (helpers state : List StateItem) : List StateItem :=
  if helpers.isEmpty then state
  else [.comment "Helper Contracts"] ++ helpers ++ [.blank] ++
    (if state.isEmpty then [] else .comment "User state variables" :: state)

/-- Split a contract; the circuits of earlier contracts are passed on. -/
def Contract.split (o : Options) (unit : SourceUnit) (symbols : Symbols) (circuits : List Circuit)
    (c : Contract) : NumberM (Contract × List Circuit) := do
  let place := c.context unit
  let depth := c.splitDepth
  let whole ← c.allFunctions.mapM fun f => do return (⟨f, ← f.resultVars⟩ : FunctionSplit)
  let context : SplitContext :=
    { options := o, owners := c.knownOwners
      callees := whole.map fun s =>
        ⟨s.function.id, s.function.params, some s.function.body, s.results, place.ofBody s.function⟩ }
  let (state, symbols) ← splitState context depth place c.state symbols
  let needsCircuit (f : FunctionDef) : Bool := f.facts.needsProof || f.facts.needsProofExternally
  let circuits := circuits ++ ((c.allFunctions.filter needsCircuit).map fun f => Circuit.empty f.id)
  let signed := whole.map (FunctionSplit.encrypted o)
  let symbols := symbols.setParams (signed.flatMap fun s => s.function.params ++ s.function.returns)
  let params (id : Nat) : List Param := ((signed.find? (·.function.id == id)).map (·.function.params)).getD []
  let (bodies, circuits) ← splitBodies context symbols depth place.ofBody signed circuits
  let name (id : Nat) : String := ((symbols.function? id).map FunctionDef.title).getD ""
  let proved := (bodies.filter fun s => s.function.facts.needsProof).map (·.function.id)
  let circuits ← Circuit.complete name proved circuits
  let unproved := (bodies.filter fun s => !s.function.facts.needsProof).map (·.function.id)
  let circuits := circuits.map fun k => if unproved.contains k.function then { k with called := some .zero } else k
  let (bodies, circuits) ← layOutCalls bodies circuits
  let (bodies, structs) ← addSections circuits bodies
  let backends := includeAll (o.backends c.ownHoms) (circuits.flatMap fun k => k.keys.map (·.2))
  let registries ← backends.mapM fun b => helperVar (Generated.keyRegistry b)
  let outer := bodies.filter fun s => s.function.facts.needsProofExternally
  let verifier (f : FunctionDef) : String := Generated.verifier c.name f.title
  let verifiers ← outer.mapM fun s => helperVar (verifier s.function)
  let circuits := outer.foldl (fun ks s => ks.map fun k =>
    if k.function == s.function.id then { k with verifier := some (verifier s.function) } else k) circuits
  let (parts, circuits) ← splitParts context symbols params outer circuits
  let kept := (bodies.filter fun s => !s.function.facts.needsProofExternally).map (·.function)
  let isConstructor := fun (f : FunctionDef) => f.isConstructor
  let functions := parts.flatMap fun (w, f) => (if w.isConstructor then [] else [w]) ++ [f]
  return ({ c with
    state := headedState (registries ++ verifiers) state
    constructors := kept.filter isConstructor ++ (parts.map (·.1)).filter isConstructor
    functions := (kept.filter fun f => !f.isConstructor) ++ functions
    structs := c.structs ++ structs }, circuits)

/-- Split all contracts. -/
def splitContracts (o : Options) (unit : SourceUnit) (symbols : Symbols) :
    List Contract → List Circuit → NumberM (List Contract × List Circuit)
  | [], circuits => return ([], circuits)
  | c :: cs, circuits => do
    let (c, circuits) ← c.split o unit symbols circuits
    let (cs, circuits) ← splitContracts o unit symbols cs circuits
    return (c :: cs, circuits)

/-- Split a program into public code and circuits; the last result is the next free number. -/
def SourceUnit.split (u : SourceUnit) (o : Options) (next : Nat) :
    Except Error (SourceUnit × List Circuit × Nat) := do
  let ((contracts, circuits), next) ← (splitContracts o u u.symbols u.contracts []).run next
  let (u, next) ← { u with pragma := Options.pragma, contracts := contracts }.link next
  return (u, circuits, next)

end Shroud
