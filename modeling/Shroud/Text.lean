/-!
# Text layout

Printed programs are built from lines. This module holds the three layout rules the printer needs:
which characters are blank, how a block of lines is indented, and how trailing blanks are dropped.

**Indentation.** Padding goes in front of every line that holds something besides blanks; blank lines
are kept as they are, so indenting never produces trailing spaces on an empty line.
-/

namespace Shroud.Text

/-- The characters that count as blank when lines are measured or trimmed. -/
def isBlank (c : Char) : Bool :=
  let n := c.toNat
  (9 ≤ n && n ≤ 13) || (28 ≤ n && n ≤ 32) || n == 0x85 || n == 0xA0 || n == 0x1680 ||
    (0x2000 ≤ n && n ≤ 0x200A) || n == 0x2028 || n == 0x2029 || n == 0x202F || n == 0x205F ||
    n == 0x3000

/-- The characters that end a line. -/
def isLineBreak (c : Char) : Bool :=
  let n := c.toNat
  (10 ≤ n && n ≤ 13) || (28 ≤ n && n ≤ 30) || n == 0x85 || n == 0x2028 || n == 0x2029

/-- Cut a text after every line break; the pieces concatenate to the text. -/
def lines : List Char → List (List Char)
  | [] => []
  | c :: rest =>
    if isLineBreak c then [c] :: lines rest
    else match lines rest with
      | [] => [[c]]
      | l :: ls => (c :: l) :: ls

/-- Put `pad` in front of every line that is not blank. -/
def indent (pad : String) (text : String) : String :=
  let pieces := (lines text.toList).map fun l => if l.all isBlank then l else pad.toList ++ l
  String.ofList pieces.flatten

/-- Drop the blanks at the end of a text. -/
def trimEnd (text : String) : String :=
  String.ofList (text.toList.reverse.dropWhile isBlank).reverse

/-- Join the parts that are not empty. -/
def joinNonempty (sep : String) (parts : List String) : String :=
  sep.intercalate (parts.filter (· ≠ ""))

/-- Does `pre` start the text? -/
def startsWith (pre text : String) : Bool :=
  pre.toList.isPrefixOf text.toList

/-- Does `part` stand somewhere in the text? -/
def occurs (part : List Char) : List Char → Bool
  | [] => part.isEmpty
  | c :: rest => part.isPrefixOf (c :: rest) || occurs part rest

/-- The text without its first `n` characters. -/
def drop (n : Nat) (text : String) : String :=
  String.ofList (text.toList.drop n)

/-- The text without its last character. -/
def dropLast (text : String) : String :=
  String.ofList text.toList.dropLast

/-- Code-point order on texts, as used wherever printed names are sorted. -/
def le (a b : String) : Bool := !(b < a)

/-- Sort texts by code points, keeping equal ones in place. -/
def sort (xs : List String) : List String := xs.mergeSort le

end Shroud.Text
