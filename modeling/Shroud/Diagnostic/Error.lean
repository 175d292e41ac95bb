import Shroud.Datum.Basic
import Shroud.Diagnostic.Place

/-!
# Failures

Why a request has no answer. Complaints about a program come with their place; once they leave the compiler
they also name the stage that found them.
-/

namespace Shroud

/-- The stages of the compiler, as complaints name them. -/
inductive Stage where
  | symbols | analysis | typing
  deriving DecidableEq, Repr

namespace Stage

def heading : Stage → String
  | .symbols => "\n\nSYMBOL ERROR: "
  | .analysis => "\n\nANALYSIS ERROR: "
  | .typing => "\n\nCOMPILER ERROR: "

end Stage

/-- Wrong values given to a part of the compiler. -/
inductive BadValue where
  | conflict (name : String)
  | negativeShift
  | notInteger (text : String)
  | tooManyParts (expected : Nat)
  | tooFewParts (expected got : Nat)
  | severalConstructors
  | noProperty (kind name : String)
  | unknownOperator (name : String)
  | unknownBackend (name : String)
  | illegalChoice (value legal : Datum)
  | illegalType (value : Datum) (expected : String)
  | unknownSetting (name : String)
  | inEntry (value : BadValue) (name : String)
  | unreadableSettings
  | brokenPath

def BadValue.message : BadValue → String
  | .conflict n => "Conflicting definitions for " ++ n
  | .negativeShift => "negative shift count"
  | .notInteger s =>
    "invalid literal for int() with base 10: " ++ String.ofList ((Datum.shownText s).toList.take 200)
  | .tooManyParts n => "too many values to unpack (expected " ++ toString n ++ ")"
  | .tooFewParts n got =>
    "not enough values to unpack (expected " ++ toString n ++ ", got " ++ toString got ++ ")"
  | .severalConstructors => "Multiple constructors exist"
  | .noProperty k n => "Class \"" ++ k ++ "\" does not have property \"" ++ n ++ "\""
  | .unknownOperator n => n ++ " is not a known built-in function"
  | .unknownBackend n => "Unknown crypto backend \"" ++ n ++ "\""
  | .illegalChoice v legal =>
    "Illegal option value " ++ v.shown ++ ", expected one of " ++ legal.inText
  | .illegalType v t => "Illegal option value " ++ v.shown ++ ", expected a " ++ t
  | .unknownSetting n => "Tried to override non-existing config value " ++ n
  | .inEntry v n => v.message ++ " (for entry \"" ++ n ++ "\")"
  | .unreadableSettings => ""
  | .brokenPath => "embedded null byte"

/-- Failures. `undefinedState` stands for an operation that has no meaning on its input. -/
inductive Error where
  | fault (f : Fault) (place : Place)
  | staged (stage : Stage) (f : Fault) (place : Place)
  | defect (d : Defect)
  | assertion
  | divisionByZero
  | badValue (v : BadValue)
  | missing (key : String)
  | unwritten (what : String)
  | noSourceUnit
  | undefinedState

namespace Error

def message : Error → String
  | .fault f p => p.situate f.message
  | .staged s f p => s.heading ++ p.situate f.message
  | .defect d => d.message
  | .assertion | .divisionByZero | .undefinedState => ""
  | .badValue v => v.message
  | .missing k => k
  | .unwritten w => w
  | .noSourceUnit => "Invalid AST (no source unit at root)"

/-- Complaints leave a stage under its heading; other failures pass as they are, and so do complaints about
names that are only found while types are checked. -/
def leaving (stage : Stage) : Error → Error
  | .fault f p =>
    if stage = .typing && f.kind = .unknownIdentifier then .fault f p else .staged stage f p
  | e => e

/-- A type of negative width was asked for the values it holds. -/
def noRange : Error := .badValue .negativeShift

/-- The type has no written form. -/
def functionType : Error := .unwritten "No code generation for FunctionTypeName"

def ofOpError : OpError → Error
  | .divisionByZero => .divisionByZero
  | .negativeShift => .badValue .negativeShift
  | .undefined => .undefinedState

end Error

/-- A requirement. It is quoted later as it was written, so its condition needs a written form. -/
def Stmt.requires? (cond : Expr) : Except Error Stmt :=
  if cond.isPrintable then .ok (.require default cond) else .error .functionType

namespace Site

/-- Complain about something at a place, unless the message has no written form. -/
def complain (s : Site) (f : Fault) (place : Place) : Error :=
  let statementWordable := match place.shown, s.stmt with
    | some _, some stmt => stmt.isPrintable
    | _, _ => true
  if f.isWordable && statementWordable then .fault f place else .functionType

/-- Complain about an expression. -/
def atExpr (s : Site) (e : Expr) (f : Fault) : Error := s.complain f (s.place e.pos)

/-- Complain about a statement. -/
def atStmt (s : Site) (stmt : Stmt) (f : Fault) : Error := s.complain f (s.placeOfStmt stmt.pos)

/-- Complain about a declaration or a declared type, which have no position. -/
def atDecl (s : Site) (f : Fault) : Error := s.complain f (s.placeOfDecl .unknown)

/-- Complain about a function. -/
def atFunction (s : Site) (func : FunctionDef) (f : Fault) : Error :=
  let s := { s with function := some func.title, stmt := none }
  s.complain f (s.placeOfStmt func.pos)

end Site

end Shroud
