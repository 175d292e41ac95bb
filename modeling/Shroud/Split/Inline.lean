import Shroud.Analysis.Owner
import Shroud.Split.Transfer

/-!
# Statements inside a circuit

A call inside a private expression makes the body of the called function part of the circuit, and so does
an if statement with a private condition.

**Versions.** A circuit variable is never assigned twice. An assignment therefore makes a new version of the
variable it writes; parameters and results are variables with versions as well.

**Branches.** Both branches of an if statement are part of the circuit, each under a guard. Where they meet,
every variable that one of them has written gets a version that chooses between the two sides.
-/

namespace Shroud

open SplitM

/-- The variable is declared in a scope around this place. -/
def LinkContext.shows (c : LinkContext) (x : Variable) : Bool := c.scope.visible.contains x.id

/-- Extend a comment. -/
def CircuitStmt.amend (more : String) : CircuitStmt → CircuitStmt
  | .comment s => .comment (s ++ more)
  | s => s

namespace Splitter

/-- Make the value of an expression the current version of a variable. -/
def assign (t : Splitter) (x : Variable) (e : Expr) : SplitM Unit := do
  let v ← t.hold e ("_" ++ x.name)
  setVersion x v
  note (.bind x v)

/-- Make the value of an argument the current version of a parameter. -/
def bindArgument (t : Splitter) (p : Param) (arg : Expr) : SplitM Unit :=
  match p.name with
  | none => throw .undefinedState
  | some name => do
    comment ("ARG " ++ name ++ ": " ++ arg.code)
    indented "" (t.assign ⟨.parameter, p.id, name⟩ arg)

/-- The current version of a result. -/
def result (v : LocalVar) : SplitM Expr := do
  match ← known? (some (.ofLocal v)) with
  | some x => return x.read
  | none => throw (.missing v.name)

/-- Carry out the body of a function in the circuit. A call is shown as a block with its text. -/
def inline (t : Splitter) (f : Callee) (text : Option String) (args : List Expr) : SplitM Expr := do
  let activity : SplitM Expr := do
    grouped .together ((f.params.zip args).forM fun (p, arg) => grouped .item (t.bindArgument p arg))
    match f.body with
    | none => throw .assertion
    | some body =>
      let copy ← linking (body.duplicate f.context .full)
      t.carryOut f.results f.context copy
      match ← f.results.mapM result with
      | [e] => return e
      | es => return .tuple .synthetic es
  inScope true f.context.shows (match text with
    | none => activity
    | some s => indented s activity)

mutual

/-- Assign an expression to a location, part by part if it is a tuple. -/
def assignTo (t : Splitter) : Expr → Expr → SplitM Unit
  | .ident i n target, rhs =>
    match Variable.ofExpr? (.ident i n target) with
    | some x => t.assign x rhs
    | none => throw .assertion
  | .index .., _ => throw (.defect .indexAssigned)
  | .tuple _ ls, rhs => do
    let rhs ← (match rhs with
      | .call .. => t.privately rhs
      | e => pure e)
    match rhs with
    | .tuple _ rs =>
      if ls.length = rs.length then grouped .together (t.assignAll ls rs) else throw .assertion
    | _ => throw .assertion
  | _, _ => throw .assertion

def assignAll (t : Splitter) : List Expr → List Expr → SplitM Unit
  | l :: ls, r :: rs => do
    grouped .item (t.assignTo l r)
    t.assignAll ls rs
  | _, _ => return ()

end

/-- Return values: each becomes the version of a result. -/
def give (t : Splitter) (results : List LocalVar) (value : Option Expr) : SplitM Unit := do
  match value with
  | none => throw .assertion
  | some (.tuple _ es) => (results.zip es).forM fun (v, e) => t.assign (.ofLocal v) e
  | some e => (results.zip [e]).forM fun (v, e) => t.assign (.ofLocal v) e

/-- Declare a variable; circuit variables always have an initial value. -/
def introduce (t : Splitter) (v : LocalVar) (init : Option Expr) : SplitM Unit := do
  match init with
  | some e => t.assign (.ofLocal v) e
  | none =>
    if !v.type.type.canBePrivate then throw .assertion
    t.assign (.ofLocal v) (← ofExcept ((Expr.literal 0).castTo v.type.type .detached).result)

/-- Let the versions of two branches meet. The current versions are those of the other branch. -/
def join (t : Splitter) (c : LinkContext) (cond : CircuitVar) (taken : Versions) : SplitM Unit :=
  indented ("JOIN [" ++ cond.name ++ "]") do
    let decisions := taken.merge (← versions) c.shows
    setVersions .empty
    decisions.forM fun (x, d) => do
      match d with
      | .keep v => resume ((← versions).set x v)
      | .choose a b =>
        let v ← t.hold (x.choice (← symbols) cond.read a b) ("_" ++ x.name)
        setVersion x v
        note (.merge x v)

/-- Extend the comment at a position of the circuit. -/
def amendComment (position : Nat) (more : String) : SplitM Unit :=
  modifyCircuit fun c => { c with body := c.body.modify position (CircuitStmt.amend more) }

/-- Evaluate a condition, then carry out the branch for the case that it holds. The result is the condition
and the versions at the end of the branch, which are taken back. -/
def firstBranch (t : Splitter) (cond : Expr) (branch : CircuitVar → SplitM Unit) :
    SplitM (CircuitVar × Versions) := do
  let outer ← versions
  let position := (← circuit).body.length
  comment ("if (" ++ cond.code ++ ")")
  let v ← t.hold cond ""
  amendComment position (" [" ++ v.name ++ "]")
  branch v
  let inner ← versions
  resume outer
  return (v, inner)

end Splitter

/-- An activity under an optional guard. -/
def SplitM.maybeGuarded (guard : Option (CircuitVar × Bool)) (activity : SplitM Unit) : SplitM Unit :=
  match guard with
  | none => activity
  | some (v, holds) => guarded v holds activity

mutual

/-- Carry out a statement in the circuit. -/
def Stmt.carryOut (t : Splitter) (results : List LocalVar) (c : LinkContext) : Stmt → SplitM Unit
  | .ret i e => within c (.ret i e) do
    comment (Stmt.ret i e).text
    t.give results e
  | .assign i l r o b => within c (.assign i l r o b) do
    comment (Stmt.assign i l r o b).text
    t.assignTo l r
  | .declare i v e => within (c.declaring v) (.declare i v e) do
    comment (Stmt.declare i v e).text
    t.introduce v e
  | .ifThen i e a none => within c (.ifThen i e a none) do
    let ((cond, taken), yes) ← captured (t.firstBranch e fun v =>
      a.carryOut t results c (some (v, true)) false)
    let (_, meet) ← captured (t.join c cond taken)
    record (.fork yes [] meet)
  | .ifThen i e a (some b) => within c (.ifThen i e a (some b)) do
    let ((cond, taken), yes) ← captured (t.firstBranch e fun v =>
      a.carryOut t results c (some (v, true)) false)
    comment ("else [" ++ cond.name ++ "]")
    let (_, no) ← captured (b.carryOut t results c (some (cond, false)) false)
    let (_, meet) ← captured (t.join c cond taken)
    record (.fork yes no meet)
  | .block b => b.carryOut t results c none true
  | .comment _ | .blank => throw .undefinedState
  | s => throw (.defect (.circuitStatement s.kind))

/-- Carry out a block. Function bodies and branches need no scope of versions of their own. -/
def Block.carryOut (t : Splitter) (results : List LocalVar) (c : LinkContext)
    (guard : Option (CircuitVar × Bool)) (ownScope : Bool) : Block → SplitM Unit
  | ⟨i, ss, single⟩ => within c (.block ⟨i, ss, single⟩) do
    let inner := { c with scope := c.scope.enterBlock i.pos (Stmt.declaredAll ss) }
    comment "\x7b"
    indented "" (maybeGuarded guard
      (if ownScope then inScope false c.shows (Stmt.carryOutAll t results inner ss)
        else Stmt.carryOutAll t results inner ss))
    comment "\x7d"

def Stmt.carryOutAll (t : Splitter) (results : List LocalVar) (c : LinkContext) : List Stmt → SplitM Unit
  | [] => return ()
  | s :: ss => do
    s.carryOut t results c
    Stmt.carryOutAll t results { c with scope := c.scope.declare s.declared } ss

end

/-! ## Whole statements -/

/-- The name under which a statement that is carried out as a whole appears in messages. -/
def wholeStatement : String := "<stmt_fct>"

/-- A written variable as a result of the statement; it has to be a primitive value of the sender. -/
def Loc.asResult (symbols : Symbols) (k : Option Knowledge) (l : Loc) : Except Error Expr := do
  if !l.isMine symbols k then throw (.defect .privateIfForeignWrite)
  match (symbols.type? l.target).map AnnTy.sourceType with
  | none => throw .undefinedState
  | some type =>
    if !type.type.isPrimitive then throw (.defect .privateIfReference)
    let owned := AnnTy.owned type.type .meLabel type.hom
    return .ident { Info.synthetic with type := some owned } (.plain l.name) (some l.target)

/-- The variables for results of these types. -/
def resultVars (types : List (AnnTy × Option String)) : SplitM (List LocalVar) :=
  ((List.range types.length).zip types).mapM fun (n, type, storage) => do
    return ⟨← fresh, [], type, Generated.returned ++ "_" ++ toString n, storage⟩

/-- Carry out a statement as a whole; the result is the statement of public code that takes over the values
it has written, followed by the statements that precede it. -/
def Splitter.carryOutWhole (t : Splitter) (c : LinkContext) (s : Stmt) : SplitM (Stmt × List Stmt) := do
  let known : StmtInfo := { (default : StmtInfo) with before := s.info.before }
  let written := s.info.writes.filter fun l => c.scope.visible.contains l.target.id
  let symbols ← symbols
  let values ← written.mapM fun l => ofExcept (l.asResult symbols s.info.before)
  let results ← resultVars (values.map fun e => (e.checkedType, none))
  let whole : Callee :=
    { id := 0, params := [], results
      body := some (.ofStmts [s, .ret default (some (.tuple .synthetic values))])
      context := { c with site := { c.site with function := some wholeStatement } } }
  working c (some (.eval known (.literal 0))) do
    let outcomes ← (match ← t.inline whole none [] with
      | .tuple _ es => pure es
      | e => pure [e])
    let outs ← (values.zip outcomes).mapM fun (e, x) => t.output x .me e.checkedType.hom
    (written.filterMap Variable.ofLoc?).forM fun x => do
      match (← versions).current? x with
      | some v => note (.hand x v)
      | none => note (.write x)
    if values.isEmpty then return .eval known (.literal 0)
    else return .assign known (.tuple .synthetic values) (.tuple .synthetic outs) "" false

end Shroud
