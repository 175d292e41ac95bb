import Shroud.Analysis.Effects

/-!
# Labels that hold the same address

Every statement is marked with what is known before and after it about the equality of owners. Knowledge
comes from conditions that must hold and from assignments; a side effect may change any variable, so after
one only what is known about fixed labels remains.

**Loops.** What is known before a loop holds for every round only if the loop has no side effects. After the
loop its condition is false, whether the body ran or not.
-/

namespace Shroud

/-- What is known about the equality of owners. -/
abbrev Knowledge := Partition Label

def Error.ofPartition : PartitionError → Error
  | .notFound => .missing "None"
  | .notPresent => .assertion
  | .differentLabels => .assertion

/-- An update that may fail. -/
def Knowledge.ofUpdate (r : Except PartitionError Unit × Knowledge) : Except Error Knowledge :=
  match r.1 with
  | .ok _ => .ok r.2
  | .error e => .error (.ofPartition e)

def Knowledge.ofResult (r : Except PartitionError Knowledge) : Except Error Knowledge :=
  match r with
  | .ok k => .ok k
  | .error e => .error (.ofPartition e)

/-- Forget all that a side effect can change. -/
def Knowledge.havoc (symbols : Symbols) (k : Knowledge) : Knowledge := k.separate symbols.isFixedLabel

/-- Variables that come into scope; nothing is known about them. -/
def Knowledge.enter (k : Knowledge) (vs : List LocalVar) : Knowledge :=
  vs.foldl (fun k v => k.insert (.var .localVar v.id v.name)) k

/-- Variables that go out of scope. -/
def Knowledge.leave (k : Knowledge) : List LocalVar → Except Error Knowledge
  | [] => .ok k
  | v :: vs => do
    let k ← ofResult (k.remove (.var .localVar v.id v.name))
    Knowledge.leave k vs

/-- How a pair of equal values changes what is known: a comparison joins two classes, an assignment moves
one label. -/
inductive Equating where
  | compared
  | assigned
  deriving DecidableEq

/-- The two labels are equal from now on; a label that got an unknown value stands alone. -/
def Knowledge.equateLabels (how : Equating) (k : Knowledge) (l r : Option Label) :
    Except Error Knowledge :=
  match l with
  | none => .ok k
  | some l =>
    if !k.has l then .ok k
    else match r with
      | some r =>
        if k.has r then
          match how with
          | .compared => ofUpdate (k.merge l r)
          | .assigned => ofUpdate (k.moveTo l r)
        else ofResult (k.isolate l)
      | none => ofResult (k.isolate l)

mutual

/-- Two values are equal, part by part for tuples. -/
def Expr.equate (how : Equating) (k : Knowledge) : Expr → Expr → Except Error Knowledge
  | .tuple i ls, r =>
    match r with
    | .tuple _ rs => Expr.equateAll how k ls rs
    | r => k.equateLabels how (Expr.tuple i ls).label? r.label?
  | l, r => k.equateLabels how l.label? r.label?

def Expr.equateAll (how : Equating) (k : Knowledge) : List Expr → List Expr → Except Error Knowledge
  | l :: ls, r :: rs => do
    let k ← l.equate how k r
    Expr.equateAll how k ls rs
  | _, _ => .ok k

end

/-- What follows from the truth of a condition, or from its falsehood if `negated`. Operands beyond those
that the operator takes do not matter. -/
def Expr.implies (negated : Bool) (k : Knowledge) : Expr → Except Error Knowledge
  | .call _ (.operator _ op _ _ _) args _ _ =>
    match op, args with
    | .not, a :: _ => a.implies (!negated) k
    | .paren, a :: _ => a.implies negated k
    | .and, a :: b :: _ =>
      if negated then .ok k
      else do
        let k ← a.implies negated k
        b.implies negated k
    | .or, a :: b :: _ =>
      if negated then do
        let k ← a.implies negated k
        b.implies negated k
      else .ok k
    | .eq, a :: b :: _ => if negated then .ok k else a.equate .compared k b
    | .ne, a :: b :: _ => if negated then a.equate .compared k b else .ok k
    | _, _ => .ok k
  | _ => .ok k

/-- What is known once a condition has been found to be true or false. -/
def Knowledge.assuming (symbols : Symbols) (k : Knowledge) (cond : Expr) (negated : Bool) :
    Except Error Knowledge := do
  if ← cond.hasEffects symbols then return k.havoc symbols
  cond.implies negated k

/-- Forget what the parts of a statement can change. -/
def Knowledge.past (symbols : Symbols) (k : Knowledge) : List (List Node) → Except Error Knowledge
  | [] => .ok k
  | p :: ps => do
    if ← symbols.haveEffects p then return k.havoc symbols
    Knowledge.past symbols k ps

/-- After a loop the condition is false, without any round or after the last one. -/
def Knowledge.afterLoop (symbols : Symbols) (cond : Expr) (skipped iterated : Knowledge) :
    Except Error Knowledge := do
  let a ← skipped.assuming symbols cond true
  let b ← iterated.assuming symbols cond true
  ofResult (a.join b)

/-- Mark a statement with what is known before and after it. -/
def StmtInfo.known (i : StmtInfo) (before after : Knowledge) : StmtInfo :=
  { i with before := some before, after := some after }

mutual

def Stmt.markAliases (symbols : Symbols) (k : Knowledge) : Stmt → Except Error Stmt
  | .ifThen i c t none => do
    let t ← t.markAliases symbols (← k.assuming symbols c false)
    let after ← Knowledge.ofResult ((t.info.after.getD k).join k)
    return .ifThen (i.known k after) c t none
  | .ifThen i c t (some e) => do
    let t ← t.markAliases symbols (← k.assuming symbols c false)
    let e ← e.markAliases symbols (← k.assuming symbols c true)
    let after ← Knowledge.ofResult ((t.info.after.getD k).join (e.info.after.getD k))
    return .ifThen (i.known k after) c t (some e)
  | .whileLoop i c b => do
    let k ← k.past symbols [c.nodes, b.nodes]
    let b ← b.markAliases symbols (← k.assuming symbols c false)
    let after ← Knowledge.afterLoop symbols c k (b.info.after.getD k)
    return .whileLoop (i.known k after) c b
  | .doWhile i b c => do
    let k ← k.past symbols [c.nodes, b.nodes]
    let b ← b.markAliases symbols k
    let k : Knowledge := b.info.after.getD k
    let after ← k.assuming symbols c true
    return .doWhile (i.known k after) b c
  | .forLoop i init c update b => do
    let locals := Stmt.declared? init ++ Stmt.declared? update
    let start := k.enter locals
    let init ← (match init with
      | none => .ok none
      | some s => do return some (← s.markAliases symbols start))
    let state : Knowledge := ((init.map Stmt.info).bind (·.after)).getD start
    let k ← state.past symbols [c.nodes, b.nodes, (update.map Stmt.nodes).getD []]
    let b ← b.markAliases symbols (← k.assuming symbols c false)
    let iterated := b.info.after.getD k
    let update ← (match update with
      | none => .ok none
      | some s => do return some (← s.markAliases symbols iterated))
    let iterated := ((update.map Stmt.info).bind (·.after)).getD iterated
    let after ← Knowledge.afterLoop symbols c state iterated
    let after ← after.leave locals
    return .forLoop (i.known k after) init c update b
  | .breakLoop i => .ok (.breakLoop (i.known k k))
  | .continueLoop i => .ok (.continueLoop (i.known k k))
  | .ret i e => .ok (.ret (i.known k k) e)
  | .eval i e => do
    let k ← k.past symbols [e.nodes]
    return .eval (i.known k k) e
  | .require i e => do
    let k ← k.past symbols [e.nodes]
    return .require (i.known k (← k.assuming symbols e false)) e
  | .assign i l r o b => do
    let k ← k.past symbols [l.nodes, r.nodes]
    return .assign (i.known k (← l.equate .assigned k r)) l r o b
  | .declare i v e => do
    let k ← k.past symbols [Expr.nodes? e]
    let name := Label.var .localVar v.id v.name
    if !k.has name then .error .assertion
    else
      match e.bind Expr.label? with
      | none => return .declare (i.known k k) v e
      | some l => return .declare (i.known k (← Knowledge.ofUpdate (k.merge name l))) v e
  | .block b => do return .block (← b.markAliases symbols k)
  | .seq i ss x => do
    let (ss, after) ← Stmt.markAliasesAll symbols k ss
    return .seq (i.known k after) ss x
  | .comment t => .ok (.comment t)
  | .blank => .ok .blank
  | .compute i v => .error (.defect (.aliasUnsupported (Stmt.compute i v).kind))
  | .enterKey i b => .error (.defect (.aliasUnsupported (Stmt.enterKey i b).kind))

def Block.markAliases (symbols : Symbols) (k : Knowledge) : Block → Except Error Block
  | ⟨i, ss, b⟩ => do
    let locals := Stmt.declaredAll ss
    let (ss, after) ← Stmt.markAliasesAll symbols (k.enter locals) ss
    return ⟨i.known k (← after.leave locals), ss, b⟩

def Stmt.markAliasesAll (symbols : Symbols) (k : Knowledge) : List Stmt → Except Error (List Stmt × Knowledge)
  | [] => .ok ([], k)
  | s :: ss => do
    let s ← s.markAliases symbols k
    let (ss, k) ← Stmt.markAliasesAll symbols (s.info.after.getD k) ss
    return (s :: ss, k)

end

/-- At the start of a function every label stands alone. Parameters without a name share one label. -/
def Contract.initialKnowledge (c : Contract) (f : FunctionDef) : Knowledge :=
  let labels := [Label.me, .all] ++ c.stateVars.map (fun v => .var .stateVar v.id v.name) ++
    f.params.map fun p => match p.name with
      | some n => .var .parameter p.id n
      | none => .var .parameter 0 "None"
  labels.foldl (fun k l => k.insert l) .empty

/-- Mark all statements with what is known about owners. -/
def SourceUnit.markAliases (u : SourceUnit) : Except Error SourceUnit := do
  let symbols := u.symbols
  let visit (c : Contract) (f : FunctionDef) : Except Error FunctionDef := do
    return { f with body := ← f.body.markAliases symbols (c.initialKnowledge f) }
  let contracts ← u.contracts.mapM fun c => do
    let constructors ← c.constructors.mapM (visit c)
    let functions ← c.functions.mapM (visit c)
    return { c with constructors, functions }
  return { u with contracts }

end Shroud
