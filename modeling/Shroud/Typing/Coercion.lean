import Shroud.Typing.Ownership

/-!
# Conversions

Where a value is used at a more specific type, the checker inserts a conversion: an implicit cast of the
data, the encryption of a public value, or a new encryption under another homomorphism.

**Two results.** Some conversions wrap the operand, others change a node inside it. `Conversion` keeps the
operand as it stands in the program next to the converted value, because the operand is what the program
shows if a later step fails.
-/

namespace Shroud

/-- The surroundings of an expression, given how it reads at the moment. -/
abbrev Spot := Expr → Site

/-- A converted operand, and the operand itself after the attempt. -/
structure Conversion where
  operand : Expr
  result : Except Error Expr

namespace Conversion

/-- The operand was changed in place. -/
def inPlace (e : Expr) : Conversion := ⟨e, .ok e⟩

def failed (e : Expr) (error : Error) : Conversion := ⟨e, .error error⟩

end Conversion

/-- A node that hangs in no program cannot have its type copied if an owner in it is unknown. -/
def Site.checkCopy (s : Site) (t : Ty) : Except Error Unit := if s.text.isNone then t.checkCopy else .ok ()

/-- A part that is put back into an expression has its names looked up again. Outside of a program none is
found; the first of them is blamed. -/
def Site.checkNames (s : Site) (e : Expr) : Except Error Unit :=
  if s.text.isSome then .ok ()
  else match (Node.exprs e.nodes).find? (fun x => x.name?.isSome) with
    | some x =>
      let s := if x.id = 0 then { s with stmt := none } else s
      .error (s.atExpr x (.undefined (x.name?.getD "")))
    | none => .ok ()

/-- Private values need a type that circuits know. -/
def checkPrivateType (t : AnnTy) : Except Error Unit :=
  if t.isPrivate && !t.type.canBePrivate then
    .error (Site.detached.atDecl (.cannotBePrivate t.type))
  else .ok ()

/-- A node that takes the place of another one. -/
def Info.inPlaceOf (e : Expr) (t : AnnTy) : Info :=
  { Info.synthetic with pos := e.pos, type := some t }

/-- Cast the data to a wider type. The plain value of a reclassified one is cast before its encryption. -/
def Expr.castTo (t : Ty) (site : Site) : Expr → Conversion
  | .reclassify i m e p h =>
    let whole := Expr.reclassify i m e p h
    if p.isAll then plainCast whole
    else
      let inner := e.castTo t site
      match inner.result with
      | .error error => .failed (.reclassify i m inner.operand p h) error
      | .ok e =>
        let i := { i with type := i.type.map fun a => { a with type := e.checkedType.type } }
        .inPlace (.reclassify i m e p h)
  | e => plainCast e
where
  plainCast (e : Expr) : Conversion :=
    let source := e.checkedType
    if !source.type.isPrimitive then
      .failed e (if source.type.isPrintable then .defect (.convertsReference source.type) else .functionType)
    else ⟨e, do
      site.checkCopy t
      return .cast (.inPlaceOf e (.owned t source.privacy source.hom)) t e true⟩

/-- Encrypt a public value for an owner. -/
def Expr.reclassifyTo (e privacy : Expr) (hom : Hom) : Except Error Expr := do
  match privacy.label? with
  | none => .error (.defect (.notLabel privacy.code))
  | some l =>
    if privacy.isAll then .error (.defect (.redundantReclassify e.code))
    else
      let owner := Expr.ofLabel l
      let t := AnnTy.owned e.checkedType.type owner hom
      checkPrivateType t
      return .reclassify (.inPlaceOf e t) .reveal e owner (some hom)

/-- Encrypt a value of the sender again under another homomorphism. -/
def Expr.rehomTo (k : Option Knowledge) (e : Expr) (expected : AnnTy) : Except Error Expr := do
  match expected.privacy.label? with
  | none => .error (.defect (.rehomTarget expected))
  | some l =>
    if !(e.checkedType.isMine k && expected.isMine k) then .error (.defect .rehomForeign)
    else if e.checkedType.hom == expected.hom then .error (.defect (.redundantRehom e.code))
    else
      let t := AnnTy.owned e.checkedType.type (.ofLabel l) expected.hom
      checkPrivateType t
      return .reclassify (.inPlaceOf e t) .rehom e .meLabel (some expected.hom)

/-- The expression with its type under another homomorphism. -/
def Expr.retyped (e : Expr) (h : Hom) : Expr := e.withType (e.checkedType.withHom h)

/-- Bring a private value to the homomorphism of `expected`. -/
def Expr.changeHom (k : Option Knowledge) (expected : AnnTy) (spot : Spot) : Expr → Conversion
  | .reclassify i m e p h =>
    let whole := Expr.reclassify i m e p h
    if whole.checkedType.isPublic then .failed whole (.defect .publicHomomorphism)
    else if whole.checkedType.isMine k then ⟨whole, whole.rehomTo k expected⟩
    else if m == .rehom then
      .failed whole ((spot whole).atExpr whole (.mismatch (.full expected) (.full whole.checkedType)))
    else .inPlace ((Expr.reclassify i m e p (some expected.hom)).retyped expected.hom)
  | .cast i t e b =>
    let whole := Expr.cast i t e b
    if whole.checkedType.isPublic then .failed whole (.defect .publicHomomorphism)
    else if whole.checkedType.isMine k then ⟨whole, whole.rehomTo k expected⟩
    else
      let inner := e.changeHom k expected fun x => spot (.cast i t x b)
      match inner.result with
      | .error error => .failed (.cast i t inner.operand b) error
      | .ok e => .inPlace ((Expr.cast i t e b).retyped expected.hom)
  | .call i f as o key =>
    let whole := Expr.call i f as o key
    if whole.checkedType.isPublic then .failed whole (.defect .publicHomomorphism)
    else if whole.checkedType.isMine k then ⟨whole, whole.rehomTo k expected⟩
    else if whole.isPublicChoice then
      match as with
      | c :: a :: b :: rest =>
        let first := a.changeHom k expected fun x => spot (.call i f (c :: x :: b :: rest) o key)
        match first.result with
        | .error error => .failed (.call i f (c :: first.operand :: b :: rest) o key) error
        | .ok a =>
          let second := b.changeHom k expected fun x => spot (.call i f (c :: a :: x :: rest) o key)
          match second.result with
          | .error error => .failed (.call i f (c :: a :: second.operand :: rest) o key) error
          | .ok b => .inPlace ((Expr.call i f (c :: a :: b :: rest) o key).retyped expected.hom)
      | _ => .failed whole .undefinedState
    else .failed whole ((spot whole).atExpr whole (.mismatch (.full expected) (.full whole.checkedType)))
  | e =>
    if e.checkedType.isPublic then .failed e (.defect .publicHomomorphism)
    else if e.checkedType.isMine k then ⟨e, e.rehomTo k expected⟩
    else .failed e ((spot e).atExpr e (.mismatch (.full expected) (.full e.checkedType)))

/-- A cast of the data changes the value below the reclassification instead of wrapping it. -/
def Expr.castsInside : Expr → Bool
  | .reclassify _ _ _ p _ => !p.isAll
  | _ => false

/-- Change the homomorphism of a cast that was just put around the operand. -/
def Conversion.changeHomBelow (c : Conversion) (k : Option Knowledge) (expected : AnnTy) (spot : Spot) :
    Conversion :=
  match c.result with
  | .ok (.cast i t inner b) =>
    let whole := Expr.cast i t inner b
    if whole.checkedType.isPublic then .failed c.operand (.defect .publicHomomorphism)
    else if whole.checkedType.isMine k then ⟨c.operand, whole.rehomTo k expected⟩
    else
      let changed := inner.changeHom k expected spot
      ⟨changed.operand, changed.result.map fun x => (Expr.cast i t x b).retyped expected.hom⟩
  | _ => c

/-- Convert a value that is no tuple literal. -/
def Expr.coercePlain (k : Option Knowledge) (spot : Spot) (e : Expr) (expected : AnnTy) : Conversion :=
  let fit : Except Error (Fit × Bool) := do
    match ← e.fits k expected with
    | .no => do
      (spot e).checkCopy expected.type
      return (← e.fits k (expected.withHom e.checkedType.hom), true)
    | f => return (f, false)
  match fit with
  | .error error => .failed e error
  | .ok (.no, _) => .failed e ((spot e).atExpr e (.mismatch (.full expected) (.full e.checkedType)))
  | .ok (fit, rehom) =>
    let same := e.checkedType.type.same expected.type
    let cast := if same then .inPlace e else e.castTo expected.type (spot e)
    match fit, cast.result with
    | _, .error _ => cast
    | .makePrivate, .ok x => ⟨cast.operand, x.reclassifyTo expected.privacy expected.hom⟩
    | _, .ok x =>
      if !rehom then cast
      else if same || e.castsInside then x.changeHom k expected spot
      else cast.changeHomBelow k expected spot

mutual

/-- Convert an expression to the expected type; `nested` tells whether it is part of another one. -/
def Expr.coerce (symbols : Symbols) (k : Option Knowledge) (spot : Spot) (nested : Bool) :
    Expr → AnnTy → Conversion
  | .tuple i es, expected =>
    let whole := Expr.tuple i es
    let mismatch := Conversion.failed whole
      ((spot whole).atExpr whole (.mismatch (.full expected) (.ofType? whole.type?)))
    match expected.type with
    | .tuple ts =>
      if ts.length = es.length then
        let (operands, results) := Expr.coerceAll symbols k (fun xs => spot (.tuple i xs)) [] es ts
        match results with
        | .error error => .failed (.tuple i operands) error
        | .ok es =>
          let t := AnnTy.plain (.tuple (es.map Expr.checkedType))
          let new := Expr.tuple { Info.synthetic with pos := i.pos, type := some t } es
          let linked := if nested then (spot whole).checkNames new else .ok ()
          match linked *> new.hasEffects symbols with
          | .error error => .failed (.tuple i operands) error
          | .ok _ => ⟨.tuple i operands, .ok new⟩
      else mismatch
    | _ => mismatch
  | e, expected => e.coercePlain k spot expected

/-- Convert several operands; none of them is replaced unless all can be converted. The first result are the
operands as they stand afterwards. -/
def Expr.coerceAll (symbols : Symbols) (k : Option Knowledge) (spot : List Expr → Site)
    (done : List Expr) : List Expr → List AnnTy → List Expr × Except Error (List Expr)
  | e :: es, t :: ts =>
    let c := e.coerce symbols k (fun x => spot (done ++ x :: es)) true t
    match c.result with
    | .error error => (done ++ c.operand :: es, .error error)
    | .ok x =>
      let (operands, results) := Expr.coerceAll symbols k spot (done ++ [c.operand]) es ts
      (operands, results.map (x :: ·))
  | es, _ => (done ++ es, .ok [])

end

/-- Put a new expression in the place of another one, which may also hand on its type. -/
def Expr.replacedBy (old : Expr) (symbols : Symbols) (new : Expr) (copyType : Bool) : Except Error Expr := do
  let _ ← new.hasEffects symbols
  let new := new.withPos old.pos
  return if copyType then new.mapInfo fun i => { i with type := old.type? } else new

/-- The type of a cast value: private values can only be converted by their owner. -/
def Expr.castResult (k : Option Knowledge) (site : Site) (e : Expr) (t : Ty) : Except Error AnnTy := do
  if e.checkedType.isPublic then
    site.checkCopy t
    return .plain t
  let owned := AnnTy.owned e.checkedType.type .meLabel .nonHomomorphic
  match ← e.fits k owned with
  | .no => .error (site.atExpr e (.mismatch (.full owned) (.full e.checkedType)))
  | _ =>
    site.checkCopy t
    return .owned t .meLabel .nonHomomorphic

/-- Convert a value explicitly: truth values become numbers and numbers become truth values. -/
def Expr.converted (e : Expr) (t : Ty) : Except Error Expr :=
  let source := e.checkedType
  let type := AnnTy.owned t source.privacy source.hom
  if t.isBool && !e.convertsTo .bool then
    .ok ((Expr.applyOp .ne [e, .literal 0]).withType type)
  else if t.isNumeric && e.convertsTo .bool then
    .ok ((Expr.applyOp .ite [e, .literal 1, .literal 0]).withType type)
  else if source.type.same t then .ok e
  else if source.type.castsTo t then
    .ok (.cast { Info.synthetic with type := some (.plain t) } t e false)
  else if source.type.isPrintable && t.isPrintable then .error (.defect (.cannotConvert source.type t))
  else .error .functionType

end Shroud
