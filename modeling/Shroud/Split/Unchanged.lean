import Shroud.Syntax.Printer
import Shroud.Text.Word

/-!
# Statements that read the same

Public code shows the source of every statement that was changed. A statement counts as unchanged if it
reads the same apart from owners, the keyword for the sender, and comments next to types.
-/

namespace Shroud.Text

/-- Replace every match in a text, from left to right. A match is given by its length; it may depend on the
character before it. `skip` counts the characters of a match that are still to be passed over. -/
def replace (matched : Option Char → List Char → Option Nat) (replacement : List Char) :
    Option Char → Nat → List Char → List Char
  | _, _, [] => []
  | _, skip + 1, c :: cs => replace matched replacement (some c) skip cs
  | previous, 0, c :: cs =>
    match matched previous (c :: cs) with
    | some (n + 1) => replacement ++ replace matched replacement (some c) n cs
    | _ => c :: replace matched replacement (some c) 0 cs

/-- The keyword for the sender as a word of its own. -/
def senderKeyword (previous : Option Char) : List Char → Option Nat
  | 'm' :: 'e' :: rest =>
    if (previous.any isWord) || (rest.head?.any isWord) then none else some 2
  | _ => none

/-- Characters of names in source code. -/
def isNameStart (c : Char) : Bool := c.isAlpha || c == '$' || c == '_'

def isNameChar (c : Char) : Bool := isNameStart c || c.isDigit

def isSourceBlank (c : Char) : Bool := c == ' ' || c == '\t' || c == '\r' || c == '\n' || c == '\x0c'

/-- The length of the mark of a homomorphism, if there is one. -/
def homMark : List Char → Nat
  | '<' :: '>' :: _ => 2
  | '<' :: '+' :: '>' :: _ => 3
  | _ => 0

/-- An owner after an at sign. -/
def ownerAnnotation : List Char → Option Nat
  | '@' :: rest =>
    let blanks := rest.takeWhile isSourceBlank
    let name := (rest.drop blanks.length).takeWhile isNameChar
    if name.head?.any isNameStart then
      some (1 + blanks.length + name.length + homMark (rest.drop (blanks.length + name.length)))
    else none
  | _ => none

/-- The length of a text up to the end of a comment on the same line. -/
def commentEnd : List Char → Option Nat
  | '*' :: '/' :: _ => some 2
  | '\n' :: _ => none
  | _ :: rest => (commentEnd rest).map (· + 1)
  | [] => none

/-- A comment on one line. -/
def inlineComment : List Char → Option Nat
  | '/' :: '*' :: rest => (commentEnd rest).map (· + 2)
  | _ => none

/-- The source without owners and with the sender spelled out. -/
def withoutOwners (source : String) : List Char :=
  replace senderKeyword "msg.sender".toList none 0 (replace (fun _ => ownerAnnotation) [] none 0 source.toList)

/-- The public code without comments. -/
def withoutComments (code : String) : List Char := replace (fun _ => inlineComment) [] none 0 code.toList

end Shroud.Text

namespace Shroud

/-- The statement reads as the source it came from. -/
def Stmt.readsAs (s : Stmt) (source : String) : Bool :=
  Text.withoutOwners source == Text.withoutComments s.text

/-- A line above and below a heading. -/
def ruler : Stmt := .comment (String.ofList (List.replicate 31 '-'))

/-- Statements under a heading, if there are any. -/
def Stmt.headed (text : String) (stmts : List Stmt) : List Stmt :=
  if stmts.isEmpty then [] else [.comment text] ++ stmts ++ [.blank]

/-- Statements between rulers with a heading, if there are any. -/
def Stmt.framed (text : String) (stmts : List Stmt) : List Stmt :=
  if stmts.isEmpty then [] else [ruler, .comment text, ruler] ++ stmts ++ [ruler, .blank]

end Shroud
