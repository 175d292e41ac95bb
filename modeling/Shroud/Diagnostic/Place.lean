import Shroud.Diagnostic.Fault

/-!
# Where a complaint is located

A message starts with the place it is about: line and column, the function and contract around it, and the
source lines up to the place. An expression also shows its statement.

**Excerpts.** All lines from the statement's first line to the place are shown, then a pointer below the
column. Tabs count as four columns. Line and column numbers below one count from the end of the text and of
the line.

**Detached nodes.** Nodes that hang in no program have no place; their messages only say so.
-/

namespace Shroud

/-- The surroundings of a node. `text` is absent for a node that belongs to no program, `stmt` for one
outside of statements. -/
structure Site where
  text : Option (List String)
  contract : Option String
  function : Option String
  stmt : Option Stmt

namespace Site

/-- The surroundings of a node that hangs in no program. -/
def detached : Site := ⟨none, none, none, none⟩

/-- The surroundings without statement and function, as declared types have them. -/
def outer (s : Site) : Site := { s with function := none, stmt := none }

end Site

/-- Where a complaint is located, with all that its message shows. -/
structure Place where
  text : Option (List String)
  pos : Pos
  start : Pos
  contract : Option String
  function : Option String
  shown : Option String

namespace Place

/-- The line with this number; numbers below one count from the end. -/
def lineAt (text : List String) (number : Int) : String :=
  let i := number - 1
  if 0 ≤ i then text.getD i.toNat "" else text.getD (text.length + i).toNat ""

/-- The part of a line before a column; columns below one count from the end. -/
def before (line : List Char) (column : Int) : List Char :=
  let n := column - 1
  if 0 ≤ n then line.take n.toNat else line.take (line.length + n).toNat

def expandTabs (line : String) : String :=
  String.ofList (line.toList.flatMap fun c => if c = '\t' then "    ".toList else [c])

/-- The pointer below a line. -/
def pointer (line : String) (column : Int) : String :=
  String.ofList ((before line.toList column).flatMap fun c => if c = '\t' then "----".toList else ['-'])

/-- The source lines from `start` to `pos` and the pointer below them. -/
def excerpt (text : List String) (start pos : Pos) : String :=
  let first := if start.line = -1 then pos.line else start.line
  if first ≠ -1 ∧ pos.line ≤ text.length then
    let count := (pos.line + 1 - first).toNat
    let shown := (List.range count).map fun (k : Nat) => expandTabs (lineAt text (first + k)) ++ "\n"
    String.join shown ++ pointer (lineAt text pos.line) pos.column ++ "/"
  else ""

/-- Line and column with the names around them. -/
def heading (p : Place) : String :=
  let names := match p.function, p.contract with
    | some f, some c => ", in function '" ++ f ++ "' of contract '" ++ c ++ "'"
    | _, some c => ", in contract '" ++ c ++ "'"
    | _, none => ""
  "At line: " ++ decimal p.pos.line ++ ";" ++ decimal p.pos.column ++ names ++ "\n"

/-- The place as it stands above a message. -/
def describe (p : Place) : String :=
  let location := match p.text with
    | none => "error"
    | some text => p.heading ++ excerpt text p.start p.pos
  location ++ (match p.shown with
    | none => ""
    | some code => "\nIn statement: " ++ code)

/-- A message with its place above it. -/
def situate (p : Place) (message : String) : String := "\n" ++ p.describe ++ "\n\n" ++ message

end Place

namespace Site

/-- A place in an expression. -/
def place (s : Site) (pos : Pos) : Place :=
  ⟨s.text, pos, (s.stmt.map Stmt.pos).getD pos, s.contract, s.function, s.stmt.map Stmt.text⟩

/-- The place of a whole statement, which is not shown again. -/
def placeOfStmt (s : Site) (pos : Pos) : Place :=
  ⟨s.text, pos, pos, s.contract, s.function, none⟩

/-- The place of a declaration or of a declared type. -/
def placeOfDecl (s : Site) (pos : Pos) : Place :=
  ⟨s.text, pos, pos, s.contract, none, none⟩

end Site

end Shroud
