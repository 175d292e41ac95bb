import Shroud.Syntax.Make

/-!
# Properties of types

**Widths.** An integer type without digits is 256 bits wide, and so is one whose digits are zero. A literal has the narrowest width in whole
bytes that holds it, signed exactly when it is negative.

**Privacy.** Private values live in a circuit, so only primitive types can be private, and signed integers
only below the full width.
-/

namespace Shroud

/-- Number of binary digits. -/
def bitLength (n : Nat) : Nat := if n = 0 then 0 else n.log2 + 1

/-- Bits needed for an integer; a negative power of two needs no extra sign bit. -/
def bitsNeeded (v : Int) : Nat :=
  let n := bitLength v.natAbs
  if v < 0 then (if v.natAbs = Nat.pow 2 (n - 1) then n else n + 1) else n

/-- The narrowest width in whole bytes that holds the integer. -/
def literalWidth (v : Int) : Nat := max 8 ((bitsNeeded v + 7) / 8 * 8)

/-- Integers that fit into 256 bits; no others are literals. -/
def isLiteralValue (v : Int) : Bool := literalWidth v ≤ 256

/-- The values of a signed or unsigned integer of a given width. -/
def inRange (signed : Bool) (bits : Nat) (v : Int) : Bool :=
  if signed then -(Nat.pow 2 (bits - 1) : Int) ≤ v && v < Nat.pow 2 (bits - 1)
  else 0 ≤ v && v < Nat.pow 2 bits

namespace Ty

instance : Inhabited Ty := ⟨.bool⟩

def isBool : Ty → Bool
  | .bool => true
  | _ => false

def isTuple : Ty → Bool
  | .tuple _ => true
  | _ => false

def isNumeric : Ty → Bool
  | .number | .numLit _ | .integer _ _ => true
  | _ => false

def isLiteral : Ty → Bool
  | .numLit _ | .boolLit _ => true
  | _ => false

def isAddress : Ty → Bool
  | .address _ => true
  | _ => false

def isCipher : Ty → Bool
  | .cipher _ _ => true
  | _ => false

def isFunction : Ty → Bool
  | .function _ _ _ => true
  | _ => false

def isEnum : Ty → Bool
  | .named .enum _ _ => true
  | _ => false

/-- An array of words that belongs to a backend. -/
def isCryptoArray : Ty → Bool
  | .cipher _ _ | .publicKey _ | .randomness _ => true
  | _ => false

/-- Arrays of all sorts. -/
def isArray : Ty → Bool
  | .array _ _ => true
  | t => t.isCryptoArray

def isSignedNumeric : Ty → Bool
  | .number => true
  | .numLit v => v < 0
  | .integer s _ => s
  | _ => false

/-- Types whose values are single words. -/
def isPrimitive : Ty → Bool
  | .elementary _ | .bool | .boolLit _ | .number | .numLit _ | .integer _ _ | .address _ => true
  | .named .enum _ _ | .named .enumValue _ _ => true
  | _ => false

/-- Length of a backend's array; `none` if it has no fixed length. -/
def cryptoLen : Ty → Option Nat
  | .cipher _ b => some b.cipherLen
  | .publicKey b => some b.keyLen
  | .randomness b => if b.randomnessLen = 0 then none else some b.randomnessLen
  | _ => none

/-- The value of a literal type. -/
def literal? : Ty → Option Value
  | .numLit v => some (.int v)
  | .boolLit b => some (.bool b)
  | _ => none

/-- The integer type that stands for a literal. -/
def integerFor (v : Int) : Ty := .integer (v < 0) (.ofBits (literalWidth v))

/-- The declared type that stands for a literal type. -/
def abstract : Ty → Ty
  | .numLit v => integerFor v
  | .boolLit _ => .bool
  | t => t

/-- What an index into the type reaches. -/
def valueType? : Ty → Option AnnTy
  | .mapping _ _ _ v => some v
  | .array v _ => some v
  | .cipher _ _ | .publicKey _ | .randomness _ => some .publicUint
  | _ => none

/-- Words the type occupies when serialised; `-1` where the length is not fixed. -/
def sizeInWords : Ty → Int
  | .array _ (some (.numLit _ v _)) => v
  | .array _ _ => -1
  | .cipher _ b => b.payloadLen
  | .publicKey b => b.keyLen
  | .randomness b => if b.randomnessLen = 0 then -1 else b.randomnessLen
  | _ => 1

end Ty

mutual

/-- Width of a primitive type, or of the elements of an array. -/
def Ty.bits? : Ty → Option Int
  | .bool | .boolLit _ => some 1
  | .number => some 256
  | .numLit v => some (literalWidth v)
  | .integer _ w => some w.bits
  | .address _ => some 160
  | .named .enum _ _ | .named .enumValue _ _ => some 256
  | .array v _ => v.bits?
  | .cipher _ _ | .publicKey _ | .randomness _ => some 256
  | _ => none

def AnnTy.bits? : AnnTy → Option Int
  | ⟨t, _, _, _, _⟩ => t.bits?

end

namespace Ty

/-- Whether values of the type can live in a circuit. -/
def canBePrivate (t : Ty) : Bool :=
  t.isPrimitive && !(t.isSignedNumeric && t.bits? == some 256)

/-- Whether an integer type holds the value. -/
def canRepresent (t : Ty) (v : Int) : Bool :=
  inRange t.isSignedNumeric (t.bits?.getD 256).toNat v

/-- A negative width leaves open what the type holds. -/
def hasRange (t : Ty) : Bool := decide (0 ≤ t.bits?.getD 256)

end Ty

namespace AnnTy

def isAddress (t : AnnTy) : Bool := t.type.isAddress

def isCipher (t : AnnTy) : Bool := t.type.isCipher

/-- The public type of ciphertexts of `plain`, which stays known as the declared type. -/
def cipherOf (plain : AnnTy) (b : Backend) : AnnTy :=
  { AnnTy.plain (.cipher plain b) with declared := some plain }

end AnnTy

mutual

/-- Attach an owner; a tuple hands it on to its parts. -/
def Ty.annotateWith (owner : Expr) : Ty → AnnTy
  | .tuple ts => .plain (.tuple (AnnTy.annotateAll owner ts))
  | t => .owned t owner .nonHomomorphic

def AnnTy.annotateAll (owner : Expr) : List AnnTy → List AnnTy
  | [] => []
  | ⟨t, _, _, _, _⟩ :: ts => t.annotateWith owner :: AnnTy.annotateAll owner ts

end

/-- Attach the parts' own owners to a tuple; fails if their number differs. -/
def Ty.annotateParts? (t : Ty) (owners : List Expr) : Option AnnTy :=
  match t with
  | .tuple ts =>
    if ts.length = owners.length then
      some (.plain (.tuple ((ts.zip owners).map fun (c, p) => c.type.annotateWith p)))
    else none
  | _ => none

end Shroud
