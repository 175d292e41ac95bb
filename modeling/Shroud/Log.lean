import Shroud.Datum.Basic

/-!
# Logs

The compiler records what it does: messages of some severity, and measurements together with the contexts
they were made in.

**Lines.** A message of several lines is shown line by line, each from its first bracket on. A line without
a bracket shows its last character only.
-/

namespace Shroud

/-- Severities in ascending order. -/
inductive Severity where
  | debug | info | warning | error | critical
  deriving DecidableEq, Repr

namespace Severity

def all : List Severity := [.debug, .info, .warning, .error, .critical]

def name : Severity → String
  | .debug => "debug"
  | .info => "info"
  | .warning => "warning"
  | .error => "error"
  | .critical => "critical"

/-- The name at the start of a line. -/
def tag (s : Severity) : String := String.ofList (s.name.toList.map Char.toUpper)

def ofName? (n : String) : Option Severity := all.find? (·.name == n)

/-- Is it worth a line in the short log? -/
def isNotable : Severity → Bool
  | .debug => false
  | _ => true

end Severity

/-- One entry of a log. -/
inductive LogEntry where
  | message (severity : Severity) (text : String)
  | data (key : String) (value : Datum) (context : List String)

namespace LogEntry

/-- The lines of a text; a carriage return ends a line too, also together with a line feed. -/
def textLines : List Char → List (List Char)
  | [] => [[]]
  | '\r' :: '\n' :: rest => [] :: textLines rest
  | c :: rest =>
    if c = '\n' || c = '\r' then [] :: textLines rest
    else match textLines rest with
      | [] => [[c]]
      | l :: ls => (c :: l) :: ls

/-- What is shown of a line. -/
def shownLine (line : List Char) : String :=
  String.ofList (if line.contains '[' then line.dropWhile (· ≠ '[') else line.getLast?.toList)

/-- The lines of a message. -/
def lines (s : Severity → Bool) : LogEntry → List String
  | .message v t =>
    if s v then (textLines ("[" ++ v.tag ++ "]: " ++ t).toList).map shownLine else []
  | .data _ _ _ => []

/-- The line of a measurement. -/
def dataLine? : LogEntry → Option String
  | .message _ _ => none
  | .data k v c =>
    some (Datum.object [("key", .text k), ("value", v), ("context", .list (c.map Datum.text))]).json

end LogEntry

/-- A log in progress: the entries so far and the open contexts. -/
structure Log where
  entries : List LogEntry
  context : List String

namespace Log

def empty : Log := ⟨[], []⟩

def push (l : Log) (context : String) : Log := { l with context := l.context ++ [context] }

def pop (l : Log) : Log := { l with context := l.context.dropLast }

def message (l : Log) (s : Severity) (text : String) : Log :=
  { l with entries := l.entries ++ [.message s text] }

/-- Record a measurement with the open contexts. -/
def data (l : Log) (key : String) (value : Datum) : Log :=
  { l with entries := l.entries ++ [.data key value l.context] }

/-- The lines of the short log, of the long log and of the measurements. -/
def infoLines (l : Log) : List String := l.entries.flatMap (LogEntry.lines Severity.isNotable)

def debugLines (l : Log) : List String := l.entries.flatMap (LogEntry.lines fun _ => true)

def dataLines (l : Log) : List String := l.entries.filterMap LogEntry.dataLine?

/-- Go one step along a path; a step up from the start leads out of it. -/
def step (done : List String) (name : String) : List String :=
  if name = "" || name = "." then done
  else if name = ".." && done.any (· ≠ "..") then done.dropLast
  else done ++ [name]

/-- The shortest way of writing a path. -/
def normalized (path : String) : String :=
  match (path.splitOn "/").foldl step [] with
  | [] => "."
  | names => "/".intercalate names

/-- Where the files of a log start, below the directory of all logs. -/
def path (label : Option String) (filename : String) : String :=
  normalized (match label with
    | some l => l ++ "/" ++ filename
    | none => filename)

end Log

end Shroud
