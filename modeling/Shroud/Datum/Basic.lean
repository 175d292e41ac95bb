import Shroud.Decimal.Shortest
import Shroud.Text
import Shroud.Text.Printable

/-!
# Data of settings and logs

Settings files and log records hold data without a fixed shape. `Datum.json` writes a datum in one line for
a log; `Datum.shown` writes it as messages quote it.

**Text in logs** holds ASCII only: every other character is written by its code, as a pair of codes above
the first plane.

**Quoted text in messages** stands in single quotes, or in double quotes if it holds a single quote and no
double one. Characters that cannot be printed are written by their code. A text read from a file may hold
codes that stand for no character; such a text is kept as a list of codes.

**Numbers** are whole or have 53 binary digits; the latter are written with the fewest digits that tell them
apart.
-/

namespace Shroud

/-- Data without a fixed shape. The entries of an object keep their order; `codes` is a text in which some
code stands for no character. -/
inductive Datum where
  | null
  | bool (b : Bool)
  | int (i : Int)
  | real (x : Double)
  | text (s : String)
  | codes (cs : List Nat)
  | list (xs : List Datum)
  | object (entries : List (String × Datum))
  deriving Repr, Inhabited

namespace Datum

/-- `width` hexadecimal digits of a number. -/
def hexDigits : Nat → Nat → List Char
  | 0, _ => []
  | w + 1, n => hexDigits w (n / 16) ++ ["0123456789abcdef".toList.getD (n % 16) '0']

/-- The code of one unit. -/
def unitEscape (n : Nat) : List Char := '\\' :: 'u' :: hexDigits 4 n

/-- A character in a log. -/
def escapeChar (c : Char) : List Char :=
  let n := c.toNat
  if c = '"' then ['\\', '"']
  else if c = '\\' then ['\\', '\\']
  else if c = '\n' then ['\\', 'n']
  else if c = '\r' then ['\\', 'r']
  else if c = '\t' then ['\\', 't']
  else if n = 8 then ['\\', 'b']
  else if n = 12 then ['\\', 'f']
  else if 32 ≤ n && n < 127 then [c]
  else if n < 0x10000 then unitEscape n
  else
    let m := n - 0x10000
    unitEscape (0xD800 + m / 0x400) ++ unitEscape (0xDC00 + m % 0x400)

/-- Text in a log. -/
def quote (s : String) : String := "\"" ++ String.ofList (s.toList.flatMap escapeChar) ++ "\""

/-- The text of the codes, if all of them stand for characters. -/
def ofCodes (cs : List Nat) : Datum :=
  if cs.all fun n => decide n.isValidChar then .text (String.ofList (cs.map Char.ofNat)) else .codes cs

/-- A code in a log. -/
def escapeCode (n : Nat) : List Char := if n.isValidChar then escapeChar (Char.ofNat n) else unitEscape n

mutual

/-- One line for a log. -/
def json : Datum → String
  | .null => "null"
  | .bool b => if b then "true" else "false"
  | .int i => toString i
  | .real .nan => "NaN"
  | .real (.infinite negative) => if negative then "-Infinity" else "Infinity"
  | .real x => x.shown
  | .text s => quote s
  | .codes cs => "\"" ++ String.ofList (cs.flatMap escapeCode) ++ "\""
  | .list xs => "[" ++ ", ".intercalate (jsonAll xs) ++ "]"
  | .object es => "\x7b" ++ ", ".intercalate (jsonEntries es) ++ "\x7d"

def jsonAll : List Datum → List String
  | [] => []
  | x :: xs => x.json :: jsonAll xs

def jsonEntries : List (String × Datum) → List String
  | [] => []
  | (k, x) :: es => (quote k ++ ": " ++ x.json) :: jsonEntries es

end

/-- A character of quoted text in a message. -/
def shownChar (delimiter c : Char) : List Char :=
  let n := c.toNat
  if c = delimiter || c = '\\' then ['\\', c]
  else if c = '\n' then ['\\', 'n']
  else if c = '\r' then ['\\', 'r']
  else if c = '\t' then ['\\', 't']
  else if Text.isPrintable c then [c]
  else if n < 0x100 then '\\' :: 'x' :: hexDigits 2 n
  else if n < 0x10000 then '\\' :: 'u' :: hexDigits 4 n
  else '\\' :: 'U' :: hexDigits 8 n

/-- Quoted text in a message. -/
def shownText (s : String) : String :=
  let cs := s.toList
  let delimiter := if cs.contains '\'' && !cs.contains '"' then '"' else '\''
  String.ofList (delimiter :: cs.flatMap (shownChar delimiter) ++ [delimiter])

/-- A quoted text of codes in a message. -/
def shownCodes (cs : List Nat) : String :=
  let delimiter := if cs.contains '\''.toNat && !cs.contains '"'.toNat then '"' else '\''
  let shown (n : Nat) : List Char :=
    if n.isValidChar then shownChar delimiter (Char.ofNat n) else unitEscape n
  String.ofList (delimiter :: cs.flatMap shown ++ [delimiter])

mutual

/-- The datum as a message quotes it. -/
def shown : Datum → String
  | .null => "None"
  | .bool b => if b then "True" else "False"
  | .int i => toString i
  | .real x => x.shown
  | .text s => shownText s
  | .codes cs => shownCodes cs
  | .list xs => "[" ++ ", ".intercalate (shownAll xs) ++ "]"
  | .object es => "\x7b" ++ ", ".intercalate (shownEntries es) ++ "\x7d"

def shownAll : List Datum → List String
  | [] => []
  | x :: xs => x.shown :: shownAll xs

def shownEntries : List (String × Datum) → List String
  | [] => []
  | (k, x) :: es => (shownText k ++ ": " ++ x.shown) :: shownEntries es

end

/-- The datum inside a text: texts stand for themselves. -/
def inText : Datum → String
  | .text s => s
  | x => x.shown

def isNull : Datum → Bool
  | .null => true
  | _ => false

/-- Does the datum count as true where a truth value is needed? -/
def holds : Datum → Bool
  | .null => false
  | .bool b => b
  | .int i => i ≠ 0
  | .real x => !x.isZero
  | .text s => s ≠ ""
  | .codes cs => !cs.isEmpty
  | .list xs => !xs.isEmpty
  | .object es => !es.isEmpty

/-- The datum as a number; truth values count as one and zero. -/
def number? : Datum → Option Int
  | .int i => some i
  | .bool b => some (if b then 1 else 0)
  | _ => none

mutual

/-- Equality of data: truth values count as numbers, numbers are compared by value, and the order of entries
does not matter. -/
def same : Datum → Datum → Bool
  | .null, .null => true
  | .text a, .text b => a == b
  | .codes a, .codes b => a == b
  | .real a, .real b => a.same b
  | .real a, b => (a.integer?.bind fun n => b.number?.map (n == ·)).getD false
  | a, .real b => (b.integer?.bind fun n => a.number?.map (n == ·)).getD false
  | .list xs, .list ys => sameAll xs ys
  | .object es, .object fs => es.length == fs.length && sameEntries es fs
  | a, b => (a.number?.bind fun n => b.number?.map (n == ·)).getD false

def sameAll : List Datum → List Datum → Bool
  | [], [] => true
  | x :: xs, y :: ys => x.same y && sameAll xs ys
  | _, _ => false

def sameEntries : List (String × Datum) → List (String × Datum) → Bool
  | [], _ => true
  | (k, x) :: es, fs =>
    (match fs.lookup k with
      | some y => x.same y
      | none => false) && sameEntries es fs

end

/-- Whether the datum holds another one: as an item, as a name, or as a part of a text. Other questions have
no answer. -/
def holdsItem? (whole part : Datum) : Option Bool :=
  match whole, part with
  | .list xs, x => some (xs.any fun y => x.same y)
  | .object es, .text s => some (es.any (·.1 == s))
  | .text t, .text s => some (Text.occurs s.toList t.toList)
  | _, _ => none

end Datum

end Shroud
