import Shroud.Analysis.EvalOrder
import Shroud.Analysis.Returns
import Shroud.Log
import Shroud.Privacy.Verification

/-!
# The passes before splitting

A program goes through the passes one after the other. Each of them marks the program and may refuse it;
the marks made so far are kept either way.

**Stages.** A complaint leaves the compiler under the heading of the stage that found it: linking,
analysis, or type checking.
-/

namespace Shroud

/-- The passes in their order. -/
inductive Pass where
  | parents | link | returns | aliases | calls | accesses | order | finality | types | circuits
  deriving DecidableEq, Repr

namespace Pass

def all : List Pass :=
  [.parents, .link, .returns, .aliases, .calls, .accesses, .order, .finality, .types, .circuits]

def name : Pass → String
  | .parents => "parents"
  | .link => "link"
  | .returns => "return"
  | .aliases => "alias"
  | .calls => "calls"
  | .accesses => "modified"
  | .order => "order"
  | .finality => "final"
  | .types => "types"
  | .circuits => "circuit"

end Pass

/-- A program on its way: its current form, the next free number, the failure that stopped it, and the
warnings. -/
structure Progress where
  unit : SourceUnit
  next : Nat
  failure : Option Error
  warnings : List Warning

namespace Progress

def start (u : SourceUnit) (next : Nat) : Progress := ⟨u, next, none, []⟩

/-- Take over the result of a pass that changes the program. -/
def update (p : Progress) (x : Except Error SourceUnit) : Progress :=
  match x with
  | .ok u => { p with unit := u }
  | .error e => { p with failure := some e }

/-- Take over the result of a pass that only checks. -/
def verify (p : Progress) (x : Except Error Unit) : Progress :=
  match x with
  | .ok _ => p
  | .error e => { p with failure := some e }

/-- Take over the result of a pass that marks the program even if it refuses it. -/
def mark (p : Progress) (c : Checked) : Progress :=
  { p with unit := c.unit, failure := c.failure, warnings := p.warnings ++ c.warnings }

/-- Run one pass. -/
def run (o : Options) (p : Progress) : Pass → Progress
  | .parents => p
  | .link =>
    match p.unit.link p.next with
    | .ok (u, next) => { p with unit := u, next := next }
    | .error e => { p with failure := some e }
  | .returns => p.verify p.unit.checkReturns
  | .aliases => p.update p.unit.markAliases
  | .calls => p.update p.unit.markCalls
  | .accesses => p.update p.unit.markAccesses
  | .order => p.verify p.unit.checkOrder
  | .finality => p.verify p.unit.checkFinality
  | .types => p.mark p.unit.check
  | .circuits => p.mark (p.unit.markCircuits o)

/-- Run passes until one fails; the result also lists the finished ones and the failed one. -/
def runAll (o : Options) : List Pass → Progress → Progress × List Pass × Option Pass
  | [], p => (p, [], none)
  | x :: xs, p =>
    let p := p.run o x
    match p.failure with
    | some _ => (p, [], some x)
    | none =>
      let (p, done, failed) := runAll o xs p
      (p, x :: done, failed)

end Progress

/-! ## The record of a run -/

/-- What a run leaves behind: its log and what it printed. -/
structure Transcript where
  log : Log
  output : String

namespace Transcript

def empty : Transcript := ⟨.empty, ""⟩

def print (t : Transcript) (text : String) : Transcript := { t with output := t.output ++ text }

/-- Print a remark about progress. -/
def remark (t : Transcript) (o : Options) (text : String) : Transcript :=
  if o.prints (.int 1) then t.print text else t

def mapLog (t : Transcript) (f : Log → Log) : Transcript := { t with log := f t.log }

/-- A warning is logged, and printed in colour unless the compiler is to be quiet. -/
def warn (t : Transcript) (o : Options) (w : Warning) : Transcript :=
  let t := t.mapLog fun l =>
    (l.message .warning w.message).data "compilerWarning"
      (.object [("type", .text w.title), ("msg", .text w.text)])
  if o.quiet.holds then t
  else t.print ("\x1b[93m" ++ "\n\nWARNING: " ++ w.message ++ "\n" ++ "\x1b[0m")

def warnAll (t : Transcript) (o : Options) (ws : List Warning) : Transcript :=
  ws.foldl (fun t w => t.warn o w) t

/-- A step that is announced before and reported after, in a context of the log. -/
def step {α : Type} (o : Options) (context announcement : String) (t : Transcript)
    (work : Transcript → Transcript × Except Error α) : Transcript × Except Error α :=
  let t := (t.mapLog (·.push context)).remark o (announcement ++ "... ")
  let (t, r) := work t
  let t := match r with
    | .ok _ => t.remark o "done\n"
    | .error _ => t
  (t.mapLog Log.pop, r)

end Transcript

/-- Which of the optional passes are run. -/
structure Selection where
  returns : Bool
  aliases : Bool
  types : Bool

def Selection.all : Selection := ⟨true, true, true⟩

/-- Run passes as one stage. -/
def Progress.stage (o : Options) (stage : Stage) (passes : List Pass) (p : Progress) : Progress :=
  let (p, _, _) := p.runAll o passes
  { p with failure := p.failure.map (Error.leaving stage) }

/-- The result of the passes so far. -/
def Progress.result (p : Progress) : Except Error Progress :=
  match p.failure with
  | some e => .error e
  | none => .ok p

/-- Link and analyse a program. -/
def Progress.analyse (o : Options) (s : Selection) (p : Progress) : Except Error Progress := do
  let p ← (p.stage o .symbols [.parents, .link]).result
  let passes := (if s.returns then [Pass.returns] else []) ++ (if s.aliases then [Pass.aliases] else []) ++
    [.calls, .accesses]
  (p.stage o .analysis passes).result

/-- The message of a complaint without the heading of its stage. -/
def Error.complaint? : Error → Option String
  | .staged _ f p => some (Error.fault f p).message
  | _ => none

/-- Run the passes on a fresh program. -/
def SourceUnit.process (u : SourceUnit) (next : Nat) (o : Options) (s : Selection) (t : Transcript) :
    Transcript × Except Error Progress :=
  let (t, r) := t.step o "preprocess" "Preprocessing AST" fun t =>
    (t, (Progress.start u next).analyse o s)
  match r with
  | .error e => (t, .error e)
  | .ok p =>
    if !s.types then (t, .ok p)
    else t.step o "typecheck" "Zkay type checking" fun t =>
      let p := p.stage o .typing [.order, .types, .circuits]
      let t := t.warnAll o p.warnings
      match p.failure with
      | none => (t, .ok p)
      | some e =>
        let t := match e.complaint? with
          | some m => t.mapLog (·.message .info ("Type check failed: " ++ m))
          | none => t
        (t, .error e)

end Shroud
