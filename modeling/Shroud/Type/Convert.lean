import Shroud.Type.Basic

/-!
# Equality and conversion of types

**Equality.** All literal types of one sort are equal; integer types are equal if they are written alike.
Named types are compared by the full names of their declarations where both are resolved. An array with a
symbolic length equals nothing.

**Conversion.** A value is converted silently to a type that can hold every value of its own type. The
combined type of two operands is the wider of them.
-/

namespace Shroud

/-- Two resolved owner names are the same if they lead to the same declaration. Keys that are owner
keywords are told apart by the place they stand at. -/
def Ref.sameOwner (r s : Ref) : Bool :=
  match r, s with
  | .decl _ a, .decl _ b => a == b
  | .decl _ a, .keyLabel _ (some (.var _ b _, _)) => a == b
  | .keyLabel _ (some (.var _ a _, _)), .decl _ b => a == b
  | .keyLabel _ (some (.var _ a _, _)), .keyLabel _ (some (.var _ b _, _)) => a == b
  | .keyLabel _ (some (.me, a)), .keyLabel _ (some (.me, b)) => a == b
  | .keyLabel _ (some (.all, a)), .keyLabel _ (some (.all, b)) => a == b
  | .keyLabel a none, .keyLabel b none => a == b
  | _, _ => false

/-- Two owner expressions name the same owner. -/
def Expr.sameOwner (p q : Expr) : Bool :=
  match p, q with
  | .me _, .me _ => true
  | .all _, .all _ => true
  | .ident _ n t, .ident _ m u =>
    match t, u with
    | some r, some s => r.sameOwner s
    | _, _ => n.name == m.name
  | p, q => p.id != 0 && p.id == q.id

/-- Lengths are equal if both are literals of one value or both are absent. -/
def sameLength (a b : Option Expr) : Bool :=
  match a, b with
  | some (.numLit _ v _), some (.numLit _ w _) => v == w
  | none, none => true
  | _, _ => false

mutual

/-- Equality of types. -/
def Ty.same : Ty → Ty → Bool
  | .elementary a, .elementary b => a == b
  | .bool, .bool => true
  | .boolLit _, .boolLit _ => true
  | .number, .number => true
  | .numLit _, .numLit _ => true
  | .integer s w, .integer t v => s == t && w == v
  | .named a ns t, .named b ms u =>
    a == b && (match t, u with
      | some x, some y => x.qualified == y.qualified
      | _, _ => ns == ms)
  | .address a, .address b => a == b
  | .mapping _ k _ v, .mapping _ l _ w => k.same l && v.same w
  | .array v a, .array w b => v.same w && sameLength a b
  | .cipher _ a, .cipher _ b => a == b
  | .publicKey a, .publicKey b => a == b
  | .randomness a, .randomness b => a == b
  | .tuple ts, .tuple us => AnnTy.sameAll ts us
  | .function ps ms rs, .function qs ns ss =>
    ps.map (·.id) == qs.map (·.id) && ms == ns && rs.map (·.id) == ss.map (·.id)
  | _, _ => false

/-- Equality of types with owners. -/
def AnnTy.same : AnnTy → AnnTy → Bool
  | ⟨t, p, h, _, _⟩, b => t.same b.type && h == b.hom && p.sameOwner b.privacy

def AnnTy.sameAll : List AnnTy → List AnnTy → Bool
  | [], [] => true
  | a :: as, b :: bs => a.same b && AnnTy.sameAll as bs
  | _, _ => false

end

mutual

/-- The copy of a type equals it. A copied mapping has owner expressions of its own, so only owners that are
keywords or names stay equal. -/
def Ty.equalsCopy : Ty → Bool
  | .mapping _ k _ v => k.equalsCopy && v.equalsCopy
  | .array v n => v.equalsCopy && sameLength n n
  | .tuple ts => AnnTy.equalCopies ts
  | t => t.same t

def AnnTy.equalsCopy : AnnTy → Bool
  | ⟨t, p, _, _, _⟩ => t.equalsCopy && (match p with
    | .me _ | .all _ => true
    | .ident .. => p.sameOwner p
    | _ => false)

def AnnTy.equalCopies : List AnnTy → Bool
  | [] => true
  | t :: ts => t.equalsCopy && AnnTy.equalCopies ts

end

mutual

/-- A value of the first type may be used where the second is expected. -/
def Ty.convertsTo : Ty → Ty → Bool
  | .boolLit b, e => e.same (.boolLit b) || e.isBool
  | .number, e => e.same .number
  | .integer s w, e =>
    e.same (.integer s w) || (match e with
      | .number => true
      | .integer t v => s == t && w.bits ≤ v.bits
      | _ => false)
  | .numLit v, e =>
    if e.isNumeric && !e.isLiteral then e.canRepresent v
    else if e.isAddress && literalWidth v == 160 && 0 ≤ v then true
    else e.same (.numLit v)
  | .named .enumValue ns t, e =>
    e.same (.named .enumValue ns t) || (match e with
      | .named .enum ms _ => ms == ns.dropLast
      | _ => false)
  | .address p, e => e.same (.address p) || (p && e.same (.address false))
  | .tuple ts, e =>
    match e with
    | .tuple us => AnnTy.convertsAll ts us
    | _ => false
  | t, e => e.same t

def AnnTy.convertsAll : List AnnTy → List AnnTy → Bool
  | [], [] => true
  | ⟨t, _, _, _, _⟩ :: as, b :: bs => t.convertsTo b.type && AnnTy.convertsAll as bs
  | _, _ => false

end

mutual

/-- Whether deciding the conversion asks which literals a type of negative width holds. The parts of tuples
are looked at up to the first that does not convert. -/
def Ty.asksRange : Ty → Ty → Bool
  | .numLit _, e => e.isNumeric && !e.isLiteral && !e.hasRange
  | .tuple ts, .tuple us => ts.length == us.length && AnnTy.askRange ts us
  | _, _ => false

def AnnTy.askRange : List AnnTy → List AnnTy → Bool
  | ⟨t, _, _, _, _⟩ :: ts, u :: us =>
    t.asksRange u.type || (t.convertsTo u.type && AnnTy.askRange ts us)
  | _, _ => false

end

/-- A primitive cast from the first type to the second is legal. -/
def Ty.castsTo (t e : Ty) : Bool :=
  match t with
  | .number | .numLit _ | .integer _ _ => e.isNumeric || e.isAddress || e.isEnum
  | .address true => e.isNumeric || e.same (.address false)
  | .address false | .named .enum _ _ | .named .enumValue _ _ => e.isNumeric
  | _ => false

/-- The common type of two operands. Two literals stay literal unless they are to be given a declared
type. -/
inductive Combined where
  | none
  | literal
  | type (t : Ty)

/-- The wider of two types that convert into each other one way at least. -/
def Ty.wider (t e : Ty) : Combined :=
  if e.convertsTo t then .type t
  else if t.convertsTo e then .type e
  else .none

mutual

/-- The common type of two operands; `declare` gives literals a declared type. -/
def Ty.combine (declare : Bool) : Ty → Ty → Combined
  | .boolLit b, e =>
    match e with
    | .boolLit _ => if declare then .type .bool else .literal
    | _ => (Ty.boolLit b).wider e
  | .numLit v, e =>
    match e with
    | .numLit w => if declare then (Ty.integerFor v).wider (Ty.integerFor w) else .literal
    | _ => (Ty.numLit v).wider e
  | .tuple ts, e =>
    match e with
    | .tuple us =>
      match AnnTy.combineAll declare ts us with
      | some cs => .type (.tuple cs)
      | Option.none => .none
    | _ => .none
  | t, e => t.wider e

/-- Part by part; the parts of the result carry no owner. -/
def AnnTy.combineAll (declare : Bool) : List AnnTy → List AnnTy → Option (List AnnTy)
  | [], [] => some []
  | ⟨t, _, _, _, _⟩ :: as, b :: bs =>
    match t.combine declare b.type, AnnTy.combineAll declare as bs with
    | .type c, some cs => some (.plain c :: cs)
    | .literal, some cs => some (.plain t :: cs)
    | _, _ => Option.none
  | _, _ => Option.none

end

mutual

/-- Whether finding the common type asks which literals a type of negative width holds. -/
def Ty.combineAsksRange : Ty → Ty → Bool
  | .tuple ts, .tuple us => ts.length == us.length && AnnTy.combineAskRange ts us
  | t, e => e.asksRange t || (!e.convertsTo t && t.asksRange e)

def AnnTy.combineAskRange : List AnnTy → List AnnTy → Bool
  | ⟨t, _, _, _, _⟩ :: ts, u :: us => t.combineAsksRange u.type || AnnTy.combineAskRange ts us
  | _, _ => false

end

end Shroud
