import Shroud.Circuit.Versions

/-!
# Records of versions

A record keeps the current versions of variables while scopes are entered and left. States can be set aside
and taken up again, and the states of two branches can be joined.

**Scopes.** A scope that was entered at a statement keeps what was recorded about the variables visible there.
A scope that was entered without one is taken back as a whole.
-/

namespace Shroud

/-- A scope that is still open: the versions at its start and the declarations visible there. -/
structure OpenScope where
  before : Versions
  visible : List Nat

/-- The current versions, the open scopes (innermost first), and the states set aside. -/
structure VersionRecord where
  versions : Versions
  scopes : List OpenScope
  saved : List (String × Versions)

namespace VersionRecord

def empty : VersionRecord := ⟨.empty, [], []⟩

/-- Record a new version. A name that belongs to no declaration has no versions. -/
def set (r : VersionRecord) (x : Option Variable) (name : String) (v : CircuitVar) : Except Error VersionRecord :=
  match x with
  | some x => .ok { r with versions := r.versions.set x v }
  | none => .error (.defect (.unlinkedName name))

/-- The current version, or the given one if there is none. -/
def get (r : VersionRecord) (x : Option Variable) (name : String) (otherwise : Option CircuitVar) :
    Except Error CircuitVar :=
  match (x.bind r.versions.current?).or otherwise with
  | some v => .ok v
  | none => .error (.missing name)

def forget (r : VersionRecord) (x : Variable) : VersionRecord := { r with versions := r.versions.forget x }

def clear (r : VersionRecord) : VersionRecord := { r with versions := .empty }

/-- Enter a scope at a place with these declarations. -/
def enter (r : VersionRecord) (visible : List Nat) : VersionRecord :=
  { r with scopes := ⟨r.versions, visible⟩ :: r.scopes }

/-- Leave the innermost scope. -/
def leave (r : VersionRecord) : VersionRecord :=
  match r.scopes with
  | [] => r
  | s :: ss =>
    { r with versions := r.versions.leave s.before fun x => s.visible.contains x.id, scopes := ss }

/-- Set the current state aside under a name. -/
def save (r : VersionRecord) (name : String) : VersionRecord :=
  { r with saved := (name, r.versions) :: r.saved }

/-- A state that was set aside. -/
def state (r : VersionRecord) (name : String) : Except Error Versions :=
  match r.saved.lookup name with
  | some vs => .ok vs
  | none => .error (.missing name)

/-- Join the current state with that of the branch taken if the condition holds. The second result lists the
versions that the join has made, with their values. -/
def join (r : VersionRecord) (symbols : Symbols) (visible : List Nat) (cond : Expr) (taken : Versions) :
    VersionRecord × List (CircuitVar × Expr) :=
  let decisions := taken.merge r.versions fun x => visible.contains x.id
  let (versions, made) := decisions.foldl (fun (vs, made) (x, d) =>
    match d with
    | .keep v => (vs.set x v, made)
    | .choose a b =>
      let e := x.choice symbols cond a b
      let v := CircuitVar.make ("join_" ++ x.name) (e.type?.getD default).type .temporary none none
      (vs.set x v, made ++ [(v, e)])) (Versions.empty, [])
  ({ r with versions := versions }, made)

end VersionRecord

/-- The variable with a name. -/
def SourceUnit.varNamed? (u : SourceUnit) (name : String) : Option Variable := u.nodes.findSome? fun n =>
  let found : Option Variable := match n with
    | .stateVar v => some ⟨.stateVar, v.id, v.name⟩
    | .localVar v => some (.ofLocal v)
    | .param p => p.name.map fun n => ⟨.parameter, p.id, n⟩
    | _ => none
  found.filter (·.name == name)

end Shroud
