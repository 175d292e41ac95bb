import Shroud.Options
import Shroud.Privacy.Capability

/-!
# Homomorphisms in use

Which homomorphisms the private values of a program have, and so which backends it needs. A function also
uses those of the functions it calls.
-/

namespace Shroud

/-- The homomorphism of a private type. -/
def AnnTy.usedHom? (t : AnnTy) : Option Hom := if t.isPrivate then some t.hom else none

namespace Hom

/-- The homomorphisms in declaration order, each of them once. -/
def ordered (hs : List Hom) : List Hom := Hom.all.filter hs.contains

end Hom

/-- The homomorphisms of an expression and its parts. -/
def Expr.usedHoms (e : Expr) : List Hom :=
  e.subexprs.filterMap fun x => x.type?.bind AnnTy.usedHom?

def FunctionDef.ownHoms (f : FunctionDef) : List Hom :=
  ((f.params ++ f.returns).filterMap fun p => p.type.usedHom?) ++
    (f.body.locals.filterMap fun v => v.type.usedHom?) ++
    f.body.exprsInPlace.flatMap fun (_, e) => e.usedHoms

def Contract.ownHoms (c : Contract) : List Hom :=
  (c.structs.flatMap fun s => s.members.filterMap fun m => m.type.usedHom?) ++
    (c.stateVars.flatMap fun v => v.type.usedHom?.toList ++ (v.init.map Expr.usedHoms).getD []) ++
    c.allFunctions.flatMap FunctionDef.ownHoms

/-- The homomorphisms that the whole program uses. -/
def SourceUnit.usedHoms (u : SourceUnit) : List Hom := Hom.ordered (u.contracts.flatMap Contract.ownHoms)

/-- The backends for the homomorphisms, none of them twice. -/
def Options.backends (o : Options) (hs : List Hom) : List Backend := ((Hom.ordered hs).map o.backend).eraseDups

/-- Homomorphisms on their way from functions to their callers: those that each function is known to use, and the
functions that have yet to tell their callers. -/
structure HomSpread where
  known : List (Nat × List Hom)
  pending : List Nat
  deriving DecidableEq, Repr

namespace HomSpread

/-- The homomorphisms that the function is known to use. -/
def homs (s : HomSpread) (f : Nat) : List Hom := (s.known.lookup f).getD []

/-- Note what the caller hears from one of the functions it calls. It has to tell its own callers what is new to it. -/
def tell (s : HomSpread) (callee caller : Nat) : HomSpread :=
  if (s.homs callee).all (s.homs caller).contains then s
  else
    { known := s.known.map fun (f, hs) => (f, if f == caller then Hom.ordered (hs ++ s.homs callee) else hs)
      pending := s.pending ++ [caller] }

/-- The function that waits for the shortest time tells its callers; nothing is left to do if none waits. -/
def step (callers : Nat → List Nat) (s : HomSpread) : Option HomSpread :=
  s.pending.getLast?.map fun callee =>
    (callers callee).foldl (·.tell callee ·) { s with pending := s.pending.dropLast }

/-- Take steps until no function waits. -/
def run (callers : Nat → List Nat) : Nat → HomSpread → HomSpread
  | 0, s => s
  | fuel + 1, s =>
    match s.step callers with
    | none => s
    | some s => run callers fuel s

/-- Every function knows of its own homomorphisms; those that have some wait. -/
def ofFunctions (fs : List FunctionDef) : HomSpread where
  known := fs.map fun f => (f.id, Hom.ordered f.facts.homs)
  pending := (fs.filter fun f => !f.facts.homs.isEmpty).map (·.id)

end HomSpread

/-- The functions in the list that call this one. A function need not tell itself anything. -/
def callersIn (fs : List FunctionDef) (callee : Nat) : List Nat :=
  (fs.filter fun f => f.facts.calls.contains callee && f.id != callee).map (·.id)

/-- The homomorphisms of the functions in the list with those of the functions they call. A function waits at most
once from the beginning and once for each homomorphism that it hears of. -/
def spreadHoms (fs : List FunctionDef) : HomSpread :=
  (HomSpread.ofFunctions fs).run (callersIn fs) ((Hom.all.length + 1) * fs.length)

/-- The function with the homomorphisms of its own parts as those that it uses. -/
def FunctionDef.withOwnHoms (f : FunctionDef) : FunctionDef :=
  { f with facts := { f.facts with homs := Hom.ordered f.ownHoms } }

/-- Record for every function what it uses. -/
def SourceUnit.markHoms (u : SourceUnit) (o : Options) : SourceUnit :=
  let spread := spreadHoms (u.allFunctions.map FunctionDef.withOwnHoms)
  u.mapFacts fun _ f =>
    let homs := spread.homs f.id
    { f.facts with homs := homs, backends := o.backends homs }

end Shroud
