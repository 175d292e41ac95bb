import Shroud.Analysis.CallGraph
import Shroud.Analysis.Owner
import Shroud.Report.Basic

/-!
# Reports about functions

What the analyses found out about each function, its statements and their expressions, in written form.
-/

namespace Shroud

/-- The written form of a location, given the written forms of keys. -/
def Loc.code (keys : List (Nat × String)) (l : Loc) : String :=
  l.name ++ (match l.key with
    | none => ""
    | some (.member _ n) => "." ++ n
    | some (.keyword k) => "[" ++ k.name ++ "]"
    | some (.index i _) => "[" ++ (keys.lookup i).getD "" ++ "]")

/-- Lists of texts in the order of their first difference. -/
def listLe : List String → List String → Bool
  | [], _ => true
  | _ :: _, [] => false
  | a :: as, b :: bs => if a == b then listLe as bs else Text.le a b

/-- Classes as sorted lists of distinct names, in order. -/
def Knowledge.code (k : Knowledge) : List (List String) :=
  (k.classes.map fun c => Text.sort (c.map Label.name).eraseDups).mergeSort listLe

/-- One expression: its kind, its written form or operator, and what type checking found. -/
structure ExprRow where
  kind : String
  code : String
  type : Option AnnTy
  privately : Bool
  operator : Option (Bool × Hom)
  inlined : Bool

def Expr.row (e : Expr) : ExprRow :=
  { kind := e.kind, code := e.code, type := e.type?, privately := e.info.privately
    operator := match e with
      | .operator _ _ p h _ => some (p, h)
      | _ => none
    inlined := e.info.inlined }

/-- One statement. -/
structure StmtRow where
  kind : String
  code : Option String
  before : Option (List (List String))
  after : Option (List (List String))
  writes : List String
  reads : List String
  effects : Bool
  owners : List LocOwner
  exprs : List ExprRow

/-- The expressions directly below a statement. -/
def Stmt.exprs : Stmt → List Expr
  | .ifThen _ c _ _ | .whileLoop _ c _ | .doWhile _ _ c | .forLoop _ _ c _ _ => [c]
  | .ret _ e => e.toList
  | .eval _ e | .require _ e => [e]
  | .assign _ l r _ _ => [l, r]
  | .declare _ _ e => e.toList
  | _ => []

def Stmt.row (symbols : Symbols) (keys : List (Nat × String)) (s : Stmt) : Except Error StmtRow := do
  let info := s.info
  if !(s.isPrintable && Expr.arePrintable s.exprs) then .error .functionType
  return {
    kind := s.kind
    code := s.code? .default
    before := info.before.map Knowledge.code
    after := info.after.map Knowledge.code
    writes := info.writes.map (Loc.code keys)
    reads := Text.sort (info.reads.map (Loc.code keys))
    effects := ← s.hasEffects symbols
    owners := info.writes.map (Loc.owner symbols)
    exprs := (Expr.subexprsAll s.exprs).map Expr.row }

/-- One function. -/
structure FunctionRow where
  contract : String
  name : String
  facts : FunctionFacts
  calls : List String
  writes : List String
  reads : List String
  effects : Bool
  externallyCallable : Bool
  stmts : List StmtRow

/-- The statements of a body in order. -/
def Block.rows (symbols : Symbols) (keys : List (Nat × String)) (b : Block) : Except Error (List StmtRow) :=
  (Node.stmts b.nodes).mapM (Stmt.row symbols keys)

def FunctionDef.row (symbols : Symbols) (keys : List (Nat × String)) (contract : String)
    (f : FunctionDef) : Except Error FunctionRow := do
  return {
    contract := contract
    name := f.title
    facts := f.facts
    calls := f.facts.calls.map fun g => ((symbols.function? g).map FunctionDef.title).getD ""
    writes := f.facts.writes.map (Loc.code keys)
    reads := Text.sort (f.facts.reads.map (Loc.code keys))
    effects := f.hasSideEffects
    externallyCallable := f.canBeExternal
    stmts := ← f.body.rows symbols keys }

/-- The written forms of the keys that locations mention. -/
def SourceUnit.indexKeys (u : SourceUnit) : List (Nat × String) := u.nodes.filterMap fun
  | .expr (.index _ _ k _) => some (k.id, k.code)
  | _ => none

/-- All functions; every call of the program must lead to a function. -/
def SourceUnit.functionRows (u : SourceUnit) : Except Error (List FunctionRow) := do
  let symbols := u.symbols
  let _ ← symbols.haveEffects u.nodes
  let keys := u.indexKeys
  let rows ← u.contracts.mapM fun c => c.allFunctions.mapM (FunctionDef.row symbols keys c.name)
  return rows.flatten

/-! ## Written reports -/

namespace LocOwner

def report : LocOwner → Report
  | .label none => .null
  | .label (some l) => .text l.name
  | .unsettled => .text "?"

end LocOwner

namespace ExprRow

/-- Types and marks are shown once they are known. -/
def report (typed : Bool) (r : ExprRow) : Except Error Report := do
  let type ← if typed then AnnTy.report? r.type else .ok .null
  let operator := match r.operator with
    | some (p, h) => [Report.bool p, .text h.name]
    | none => []
  let marks := if !typed then [] else
    [type, .text (if r.privately then "P" else "-")] ++ operator ++
      (if r.inlined then [.text "inlined"] else [])
  return .list ([.text r.kind, .text r.code] ++ marks)

end ExprRow

namespace StmtRow

def report (typed : Bool) (r : StmtRow) : Except Error Report := do
  let classes (cs : Option (List (List String))) : Report := match cs with
    | none => .null
    | some cs => .list (cs.map Report.texts)
  let exprs ← r.exprs.mapM (ExprRow.report typed)
  return .object ([("k", .text r.kind), ("code", .text? r.code), ("before", classes r.before),
    ("after", classes r.after), ("mod", .texts r.writes), ("read", .texts r.reads),
    ("se", .bool r.effects)] ++
    (if typed && !r.writes.isEmpty then [("owners", .list (r.owners.map LocOwner.report))] else []) ++
    (if exprs.isEmpty then [] else [("exprs", .list exprs)]))

end StmtRow

namespace FunctionRow

def report (typed : Bool) (r : FunctionRow) : Except Error Report := do
  let stmts ← r.stmts.mapM (StmtRow.report typed)
  return .object ([("contract", .text r.contract), ("name", .text r.name),
    ("static", .bool r.facts.staticBody), ("recursive", .bool r.facts.recursive),
    ("calls", .texts r.calls), ("mod", .texts r.writes), ("read", .texts r.reads),
    ("side_effects", .bool r.effects), ("external", .bool r.externallyCallable)] ++
    (if typed then [("can_be_private", .bool r.facts.canBePrivate), ("verify", .bool r.facts.needsProof),
      ("verify_ext", .bool r.facts.needsProofExternally)] else []) ++
    [("stmts", .list stmts)])

end FunctionRow

/-- All functions of a program. -/
def SourceUnit.functionReport (u : SourceUnit) (typed : Bool) : Except Error Report := do
  let rows ← u.functionRows
  return .list (← rows.mapM (FunctionRow.report typed))

end Shroud
