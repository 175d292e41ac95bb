import Shroud.Datum.Basic

/-!
# Reading settings files

A settings file holds one datum in JSON notation, with names for the infinite and the undefined number. A
number with a fraction or an exponent is no whole one. Of two entries with one name the later value counts,
at the place of the earlier.
-/

namespace Shroud.Datum

/-- Blank characters between tokens. -/
def isGap (c : Char) : Bool := c = ' ' || c = '\t' || c = '\n' || c = '\r'

def skipGap (cs : List Char) : List Char := cs.dropWhile isGap

/-- The value of a hexadecimal digit. -/
def hexValue? (c : Char) : Option Nat :=
  if '0' ≤ c && c ≤ '9' then some (c.toNat - '0'.toNat)
  else if 'a' ≤ c && c ≤ 'f' then some (c.toNat - 'a'.toNat + 10)
  else if 'A' ≤ c && c ≤ 'F' then some (c.toNat - 'A'.toNat + 10)
  else none

/-- A code of four hexadecimal digits. -/
def readUnit? : List Char → Option (Nat × List Char)
  | a :: b :: c :: d :: rest => do
    let a ← hexValue? a
    let b ← hexValue? b
    let c ← hexValue? c
    let d ← hexValue? d
    return (((a * 16 + b) * 16 + c) * 16 + d, rest)
  | _ => none

/-- The second half of a pair of codes. -/
def readLowUnit? : List Char → Option (Nat × List Char)
  | '\\' :: 'u' :: rest =>
    match readUnit? rest with
    | some (n, rest) => if 0xDC00 ≤ n && n < 0xE000 then some (n, rest) else none
    | none => none
  | _ => none

/-- A code; those above the first plane come in pairs. Half of a pair stands for no character. -/
def readCode? (cs : List Char) : Option (Nat × List Char) := do
  let (n, rest) ← readUnit? cs
  if 0xD800 ≤ n && n < 0xDC00 then
    match readLowUnit? rest with
    | some (m, rest) => return (0x10000 + (n - 0xD800) * 0x400 + (m - 0xDC00), rest)
    | none => return (n, rest)
  else return (n, rest)

/-- The characters that a backslash stands in front of. -/
def simpleEscape? (c : Char) : Option Char :=
  [('"', '"'), ('\\', '\\'), ('/', '/'), ('b', Char.ofNat 8), ('f', Char.ofNat 12), ('n', '\n'),
    ('r', '\r'), ('t', '\t')].lookup c

/-- The codes of a text after its opening quote. -/
def readText : Nat → List Char → Option (List Nat × List Char)
  | 0, _ => none
  | _ + 1, [] => none
  | _ + 1, '"' :: rest => some ([], rest)
  | n + 1, '\\' :: 'u' :: rest => do
    let (c, rest) ← readCode? rest
    let (cs, rest) ← readText n rest
    return (c :: cs, rest)
  | n + 1, '\\' :: c :: rest => do
    let c ← simpleEscape? c
    let (cs, rest) ← readText n rest
    return (c.toNat :: cs, rest)
  | n + 1, c :: rest =>
    if c.toNat < 32 || c = '\\' then none
    else do
      let (cs, rest) ← readText n rest
      return (c.toNat :: cs, rest)

/-- The value of decimal digits. -/
def digitsValue (cs : List Char) : Nat := cs.foldl (fun n c => n * 10 + (c.toNat - '0'.toNat)) 0

/-- Digits after a point, of which there must be one. -/
def readFraction (cs : List Char) : List Char × List Char :=
  match cs with
  | '.' :: rest =>
    let digits := rest.takeWhile Char.isDigit
    if digits.isEmpty then ([], cs) else (digits, rest.drop digits.length)
  | cs => ([], cs)

/-- A power of ten, if there is one. -/
def readPower (cs : List Char) : Option Int × List Char :=
  match cs with
  | c :: rest =>
    if c = 'e' || c = 'E' then
      let (negative, rest) := match rest with
        | '-' :: rest => (true, rest)
        | '+' :: rest => (false, rest)
        | rest => (false, rest)
      let digits := rest.takeWhile Char.isDigit
      let n : Int := digitsValue digits
      if digits.isEmpty then (none, cs) else (some (if negative then -n else n), rest.drop digits.length)
    else (none, cs)
  | [] => (none, cs)

/-- The most digits that an integer is read with. -/
def mostDigits : Nat := 4300

/-- A number without superfluous zeros. -/
def readNumber? (cs : List Char) : Option (Datum × List Char) :=
  let (negative, cs) := match cs with
    | '-' :: rest => (true, rest)
    | cs => (false, cs)
  let digits := match cs with
    | '0' :: _ => ['0']
    | cs => cs.takeWhile Char.isDigit
  if digits.isEmpty then none
  else
    let (fraction, rest) := readFraction (cs.drop digits.length)
    let (power, rest) := readPower rest
    if fraction.isEmpty && power.isNone then
      let n : Int := digitsValue digits
      if digits.length ≤ mostDigits then some (.int (if negative then -n else n), rest) else none
    else
      some (.real (.ofDecimal negative (digitsValue (digits ++ fraction))
        (power.getD 0 - fraction.length)), rest)

/-- Add an entry; a repeated name keeps its place. -/
def setEntry (es : List (String × Datum)) (k : String) (x : Datum) : List (String × Datum) :=
  if es.any (·.1 == k) then es.map fun (n, y) => if n == k then (n, x) else (n, y)
  else es ++ [(k, x)]

mutual

/-- One datum and the text after it. -/
def readValue : Nat → List Char → Option (Datum × List Char)
  | 0, _ => none
  | n + 1, cs =>
    match cs with
    | 'n' :: 'u' :: 'l' :: 'l' :: rest => some (.null, rest)
    | 'N' :: 'a' :: 'N' :: rest => some (.real .nan, rest)
    | 'I' :: 'n' :: 'f' :: 'i' :: 'n' :: 'i' :: 't' :: 'y' :: rest => some (.real (.infinite false), rest)
    | '-' :: 'I' :: 'n' :: 'f' :: 'i' :: 'n' :: 'i' :: 't' :: 'y' :: rest =>
      some (.real (.infinite true), rest)
    | 't' :: 'r' :: 'u' :: 'e' :: rest => some (.bool true, rest)
    | 'f' :: 'a' :: 'l' :: 's' :: 'e' :: rest => some (.bool false, rest)
    | '"' :: rest => do
      let (cs, rest) ← readText (rest.length + 1) rest
      return (ofCodes cs, rest)
    | '[' :: rest =>
      match skipGap rest with
      | ']' :: rest => some (.list [], rest)
      | rest => do
        let (xs, rest) ← readItems n rest
        return (.list xs, rest)
    | '\x7b' :: rest =>
      match skipGap rest with
      | '\x7d' :: rest => some (.object [], rest)
      | rest => do
        let (es, rest) ← readEntries n [] rest
        return (.object es, rest)
    | cs => readNumber? cs

/-- The items of a list up to its closing bracket. -/
def readItems : Nat → List Char → Option (List Datum × List Char)
  | 0, _ => none
  | n + 1, cs => do
    let (x, rest) ← readValue n (skipGap cs)
    match skipGap rest with
    | ']' :: rest => return ([x], rest)
    | ',' :: rest =>
      let (xs, rest) ← readItems n rest
      return (x :: xs, rest)
    | _ => none

/-- The entries of an object up to its closing brace. -/
def readEntries : Nat → List (String × Datum) → List Char → Option (List (String × Datum) × List Char)
  | 0, _, _ => none
  | n + 1, es, cs =>
    match skipGap cs with
    | '"' :: rest => do
      let (k, rest) ← readText (rest.length + 1) rest
      match skipGap rest with
      | ':' :: rest =>
        let (x, rest) ← readValue n (skipGap rest)
        let es := setEntry es (String.ofList (k.map Char.ofNat)) x
        match skipGap rest with
        | '\x7d' :: rest => return (es, rest)
        | ',' :: rest => readEntries n es rest
        | _ => none
      | _ => none
    | _ => none

end

/-- Read a whole text as one datum. -/
def read? (s : String) : Option Datum :=
  let cs := s.toList
  match readValue (2 * cs.length + 1) (skipGap cs) with
  | some (x, rest) => if (skipGap rest).isEmpty then some x else none
  | none => none

end Shroud.Datum
