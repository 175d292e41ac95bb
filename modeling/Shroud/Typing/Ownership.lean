import Shroud.Analysis.Alias

/-!
# Using values at other types

**Accessible values** are public or owned by the sender, so that the sender knows them in plain.

**Fit.** A value fits a type if its data converts and its owner is known to be the expected one. A public
value also fits a private type, but has to be encrypted on the way.

**Operations on ciphertexts** need at least one operand that the sender cannot read. The others are public,
or are encrypted under the same key.
-/

namespace Shroud

/-- The two labels are known to be equal. -/
def sameLabel (k : Option Knowledge) (a b : Label) : Bool :=
  a == b || (match k with
    | some k => k.same a b
    | none => false)

namespace AnnTy

/-- Owned by the sender as far as is known. -/
def isMine (k : Option Knowledge) (t : AnnTy) : Bool :=
  t.privacy.isMe || (match k, t.privacy.label? with
    | some k, some l => k.same l .me
    | _, _ => false)

/-- Known to the sender in plain. -/
def isAccessible (k : Option Knowledge) (t : AnnTy) : Bool := t.isPublic || t.isMine k

end AnnTy

/-- The owner under which a value can be used: none, one, or one for each part of a tuple. -/
inductive CommonOwner where
  | none
  | one (owner : Expr)
  | many (owners : List CommonOwner)

/-- The owner under which a value of a type that is no tuple can be used where `other` is expected. -/
def AnnTy.commonOwnerPlain (k : Option Knowledge) (t other : AnnTy) : CommonOwner :=
  if t.hom != other.hom && !t.isPublic then .none
  else match other.privacy.label?, t.privacy.label? with
    | some expected, some actual =>
      if sameLabel k expected actual then .one t.privacy
      else if t.privacy.isAll then .one other.privacy
      else .none
    | _, _ => .none

mutual

/-- The owner under which a value can be used where `other` is expected; tuples need equal lengths. -/
def AnnTy.commonOwner (k : Option Knowledge) : AnnTy → AnnTy → Except Error CommonOwner
  | ⟨t, p, h, a, d⟩, other => t.commonOwner k ⟨t, p, h, a, d⟩ other

def Ty.commonOwner (k : Option Knowledge) : Ty → AnnTy → AnnTy → Except Error CommonOwner
  | .tuple ts, _, other =>
    match other.type with
    | .tuple us =>
      if ts.length = us.length then do return .many (← AnnTy.commonOwners k ts us)
      else .error .assertion
    | _ => .error .assertion
  | _, whole, other => .ok (whole.commonOwnerPlain k other)

def AnnTy.commonOwners (k : Option Knowledge) : List AnnTy → List AnnTy → Except Error (List CommonOwner)
  | t :: ts, u :: us => do
    let o ← t.commonOwner k u
    return o :: (← AnnTy.commonOwners k ts us)
  | _, _ => .ok []

end

/-- Whether a value can be used at a type. -/
inductive Fit where
  | no
  | yes
  | makePrivate
  deriving DecidableEq, Repr

/-- The type of an expression that has been checked. -/
def Expr.checkedType (e : Expr) : AnnTy := e.type?.getD default

/-- The data converts to the type. -/
def Expr.convertsTo (e : Expr) (t : Ty) : Bool := e.checkedType.type.convertsTo t

/-- The data converts to the type, as far as the types have ranges. -/
def Expr.convertsTo? (e : Expr) (t : Ty) : Except Error Bool :=
  if e.checkedType.type.asksRange t then .error .noRange else .ok (e.convertsTo t)

/-- The common type of two operands, as far as the types have ranges. -/
def Ty.combine? (declare : Bool) (t u : Ty) : Except Error Combined :=
  if t.combineAsksRange u then .error .noRange else .ok (t.combine declare u)

/-- A common owner of the parts of a tuple is the owner it has already, an owner keyword. -/
def CommonOwner.isKeyword (o : CommonOwner) (t : AnnTy) : Bool :=
  match o with
  | .one p => (p.isMe && t.privacy.isMe) || (p.isAll && t.privacy.isAll)
  | _ => false

/-- Whether the value of the expression can be used at a type. -/
def Expr.fits (k : Option Knowledge) (e : Expr) (expected : AnnTy) : Except Error Fit := do
  let actual := e.checkedType
  if !(← e.convertsTo? expected.type) then return .no
  match ← actual.commonOwner k expected with
  | .none => return .no
  | .one p => return if p.label? == actual.privacy.label? then .yes else .makePrivate
  | .many os =>
    match actual.type, e with
    | _, .tuple _ _ => .error .assertion
    | .tuple ts, _ =>
      return if os.length == ts.length && (os.zip ts).all (fun (o, t) => o.isKeyword t) then .yes else .no
    | _, _ => .error .assertion

/-- A choice between two values with a public condition. -/
def Expr.isPublicChoice (e : Expr) : Bool :=
  match e with
  | .call _ (.operator _ .ite _ _ _) (c :: _) _ _ => c.checkedType.isPublic
  | _ => false

/-- Whether the value can be had under another homomorphism. -/
def Expr.canChangeHom (k : Option Knowledge) : Expr → Bool
  | .reclassify _ _ _ _ _ => true
  | .cast i t e b => (Expr.cast i t e b).checkedType.isAccessible k || e.canChangeHom k
  | .call i f as o key =>
    let e := Expr.call i f as o key
    e.checkedType.isAccessible k ||
      (e.isPublicChoice && (match as with
        | _ :: a :: b :: _ => a.canChangeHom k && b.canChangeHom k
        | _ => false))
  | e => e.checkedType.isAccessible k

/-- The homomorphism that both values can be brought to, the left one's if possible. -/
def commonHom (k : Option Knowledge) (l r : Expr) : Hom :=
  if l.checkedType.hom != r.checkedType.hom && l.canChangeHom k then r.checkedType.hom
  else l.checkedType.hom

/-- An operation on ciphertexts: the type of the result and which operands stay public. -/
structure HomOperation where
  result : AnnTy
  publicArgs : List Bool

namespace HomOperation

/-- The types the operands are brought to. -/
def inputs (o : HomOperation) : List AnnTy :=
  o.publicArgs.map fun p =>
    if p then .owned o.result.type .allLabel .nonHomomorphic else o.result

end HomOperation

/-- The common type of all operands. -/
def combineAll : List Ty → Except Error (Option Ty)
  | [] => .ok none
  | t :: ts => ts.foldlM (fun acc u =>
    match acc with
    | none => .ok none
    | some t => do
      match ← t.combine? true u with
      | .type c => return some c
      | _ => return none) (some t)

def Expr.isReclassify : Expr → Bool
  | .reclassify _ _ _ _ _ => true
  | _ => false

/-- The operation on ciphertexts that an operator stands for. The product with a reclassified factor has no
entry of its own in the table: the factor is used in plain and the result is made fresh again. -/
def Op.homOperation (op : Op) (k : Option Knowledge) (args : List Expr) :
    Except Error (Option HomOperation) := do
  let foreign := (args.map Expr.checkedType).filter fun t => !t.isAccessible k
  match foreign with
  | [] => .error (.defect .allAccessible)
  | owner :: _ =>
    match ← combineAll (args.map (·.checkedType.type)) with
    | none => return none
    | some t =>
      let result := AnnTy.owned t owner.privacy .additive
      match Hom.overload? op.name .additive (args.map (·.checkedType.isPublic)) with
      | some o => return some ⟨result, o.publicArgs⟩
      | none =>
        match args with
        | [a, b] =>
          return if op == .mul && foreign.length == 2 && a.isReclassify != b.isReclassify
            then some ⟨result, [false, false]⟩ else none
        | _ => return none

end Shroud
