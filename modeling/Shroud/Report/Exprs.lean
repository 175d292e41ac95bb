import Shroud.Report.Basic
import Shroud.Syntax.Attribute
import Shroud.Typing.Coercion

/-!
# Reports about single expressions
-/

namespace Shroud

/-- What is shown of an expression, with all expressions below it and their types. -/
def View.report (v : View) : Except Error Report := do
  if !(v.expr.isPrintable && Expr.arePrintable v.below) then .error .functionType
  let code := Report.ofDatum v.code
  let type ← (match v.type with
    | .kept => AnnTy.report? v.expr.type?
    | .absent => .ok .null
    | .literal => .ok (.text "lit"))
  let rows ← v.below.mapM fun x => do
    return Report.list [.text x.kind, .text x.code, ← AnnTy.report? x.type?]
  return .object [("code", code), ("exprs", .list (.list [.text v.expr.kind, code, type] :: rows))]

/-- An expression with all expressions below it and their types. -/
def Expr.report (e : Expr) : Except Error Report := e.view.report

mutual

def CommonOwner.report : CommonOwner → Report
  | .none => .null
  | .one p => .text p.code
  | .many os => .list (CommonOwner.reports os)

def CommonOwner.reports : List CommonOwner → List Report
  | [] => []
  | o :: os => o.report :: CommonOwner.reports os

end

def Fit.report : Fit → Report
  | .no => .bool false
  | .yes => .bool true
  | .makePrivate => .text "make-private"

/-- What the type of an expression says about its value. -/
def Expr.facts (k : Option Knowledge) (e : Expr) : Except Error Report := do
  let t := e.checkedType
  t.checkCopy
  return .object [("public", .bool t.isPublic), ("private", .bool t.isPrivate), ("me", .bool (t.isMine k)),
    ("accessible", .bool (t.isAccessible k)), ("address", .bool t.isAddress), ("cipher", .bool t.isCipher),
    ("label", .text? (t.privacy.label?.map Label.name)), ("type", ← t.report),
    ("zkay_type", ← t.sourceType.report), ("clone_eq", .bool t.equalsCopy),
    ("public_ite", .bool e.isPublicChoice)]

/-- An operation on ciphertexts: which operands stay public, the type of the result and of the operands. -/
def HomOperation.report (o : HomOperation) : Except Error Report := do
  return .list [.bools o.publicArgs, ← o.result.report, .list (← o.inputs.mapM AnnTy.report)]

end Shroud
