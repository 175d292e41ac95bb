import Shroud.Log
import Shroud.Typing.Ownership

/-!
# Reports

A report is data in which single values may be missing because computing them failed. Every question to the
compiler is answered by a report.
-/

namespace Shroud

/-- Data with failures in place of values. -/
inductive Report where
  | null
  | bool (b : Bool)
  | int (i : Int)
  | real (x : Double)
  | text (s : String)
  | list (xs : List Report)
  | object (entries : List (String × Report))
  | failed (e : Error)

namespace Report

instance : Inhabited Report := ⟨.null⟩

def nat (n : Nat) : Report := .int n

def texts (xs : List String) : Report := .list (xs.map Report.text)

def nats (xs : List Nat) : Report := .list (xs.map Report.nat)

def bools (xs : List Bool) : Report := .list (xs.map Report.bool)

def text? : Option String → Report
  | some s => .text s
  | none => .null

/-- A value, or why there is none. -/
def attempt : Except Error Report → Report
  | .ok r => r
  | .error e => .failed e

/-- A step that only succeeds or fails. -/
def done : Except Error Unit → Report
  | .ok _ => .null
  | .error e => .failed e

mutual

/-- Plain data as a report. -/
def ofDatum : Datum → Report
  | .null => .null
  | .bool b => .bool b
  | .int i => .int i
  | .real x => .real x
  | .text s => .text s
  | .codes cs => .text (String.ofList (cs.map Char.ofNat))
  | .list xs => .list (ofData xs)
  | .object es => .object (ofEntries es)

def ofData : List Datum → List Report
  | [] => []
  | x :: xs => ofDatum x :: ofData xs

def ofEntries : List (String × Datum) → List (String × Report)
  | [] => []
  | (k, x) :: es => (k, ofDatum x) :: ofEntries es

end

/-- The entries of an object. -/
def entries : Report → List (String × Report)
  | .object es => es
  | _ => []

end Report

/-- The written form of a type; a function type itself has only a mark, and one inside has no form. -/
def Ty.report (t : Ty) : Except Error Report :=
  if t.isFunction then .ok (.text "<function>")
  else if t.isPrintable then .ok (.text t.code) else .error .functionType

/-- The written form of a type with its owner. -/
def AnnTy.report (t : AnnTy) : Except Error Report :=
  if t.type.isFunction then .ok (.text "<function>")
  else if t.isPrintable then .ok (.text t.code) else .error .functionType

/-- The written form of the type found for an expression. -/
def AnnTy.report? : Option AnnTy → Except Error Report
  | none => .ok .null
  | some t => t.report

def Hom.reports (hs : List Hom) : Report := .texts (hs.map Hom.name)

/-- All entries of a log. -/
def Log.report (l : Log) : Report := .list (l.entries.map fun
  | .message s t => .texts [s.name, t]
  | .data k v c => .list [.text "data", .text k, .ofDatum v, .texts c])

end Shroud
