/-!
# Homomorphisms

A ciphertext either supports no arithmetic at all or is additively homomorphic. The table of operations
that can be carried out on ciphertexts is closed: each entry says which operands have to be public.

**Overloads.** `Hom.overload?` returns the first entry whose public operands really are public. A public
operand may also stand where a ciphertext is accepted, since it can be encrypted on the way.
-/

namespace Shroud

/-- How the ciphertexts of a private value may be computed with. -/
inductive Hom where
  | nonHomomorphic
  | additive
  deriving DecidableEq, Repr, Inhabited

namespace Hom

/-- Both homomorphisms in declaration order. -/
def all : List Hom := [.nonHomomorphic, .additive]

/-- The mark written after a privacy label. -/
def mark : Hom → String
  | .nonHomomorphic => ""
  | .additive => "<+>"

/-- The function that re-encrypts a value under this homomorphism. -/
def rehomName : Hom → String
  | .nonHomomorphic => "unhom"
  | .additive => "addhom"

/-- The name under which the homomorphism appears in reports. -/
def name : Hom → String
  | .nonHomomorphic => "NON_HOMOMORPHIC"
  | .additive => "ADDITIVE"

theorem mem_all (h : Hom) : h ∈ all := by cases h <;> decide

end Hom

/-- An operation on ciphertexts. `publicArgs` tells for each operand whether it has to be public. -/
structure HomOverload where
  op : String
  hom : Hom
  publicArgs : List Bool
  deriving DecidableEq, Repr

namespace HomOverload

/-- All operations on ciphertexts, in the order in which they are tried. -/
def table : List HomOverload := [
  ⟨"sign+", .additive, [false]⟩,
  ⟨"sign-", .additive, [false]⟩,
  ⟨"+", .additive, [false, false]⟩,
  ⟨"+", .additive, [false, true]⟩,
  ⟨"+", .additive, [true, false]⟩,
  ⟨"-", .additive, [false, false]⟩,
  ⟨"-", .additive, [false, true]⟩,
  ⟨"-", .additive, [true, false]⟩,
  ⟨"*", .additive, [false, true]⟩,
  ⟨"*", .additive, [true, false]⟩]

/-- Every operand the overload needs in public is public. -/
def fits (o : HomOverload) (argIsPublic : List Bool) : Bool :=
  o.publicArgs.length == argIsPublic.length &&
    (o.publicArgs.zip argIsPublic).all fun (needed, isPublic) => isPublic || !needed

end HomOverload

/-- The first overload of `op` for `hom` that the operands satisfy. -/
def Hom.overload? (op : String) (hom : Hom) (argIsPublic : List Bool) : Option HomOverload :=
  HomOverload.table.find? fun o => o.op == op && o.hom == hom && o.fits argIsPublic

end Shroud
