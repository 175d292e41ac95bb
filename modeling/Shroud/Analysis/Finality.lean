import Shroud.Symbol.Link

/-!
# Final state variables

A final state variable without initial value is assigned exactly once in the constructor, on every path and
before it is read.
-/

namespace Shroud

/-- The final variables to assign, with whether they have been. -/
abbrev Assigned := List (Nat × Bool)

/-- Record an assignment to the location, or to the parts of a tuple. -/
def Expr.markAssigned (complain : Error) : Expr → Assigned → Except Error Assigned
  | .tuple _ es, a => markAll es a
  | .ident _ _ (some t), a =>
    match a.lookup t.id with
    | none => .ok a
    | some true => .error complain
    | some false => .ok (a.map fun (i, b) => (i, b || i == t.id))
  | _, a => .ok a
where
  markAll : List Expr → Assigned → Except Error Assigned
    | [], a => .ok a
    | e :: es, a => do
      let a ← e.markAssigned complain a
      markAll es a

/-- Complain about the first name that reads a final variable too early. -/
def Node.checkReads (site : Site) (a : Assigned) : List Node → Except Error Unit
  | [] => .ok ()
  | .expr (.ident i n (some t)) :: ns =>
    if a.lookup t.id == some false then
      .error (site.atExpr (.ident i n (some t)) (.finalReadEarly n.name))
    else Node.checkReads site a ns
  | _ :: ns => Node.checkReads site a ns

mutual

/-- Follow the assignments of a statement. -/
def Stmt.assigns (site : Site) : Stmt → Assigned → Except Error Assigned
  | .ifThen i c t none, a => do
    Node.checkReads { site with stmt := some (.ifThen i c t none) } a c.nodes
    let b ← t.assigns site a
    if b == a then .ok a else .error (site.atStmt (.ifThen i c t none) .finalInOneBranch)
  | .ifThen i c t (some e), a => do
    Node.checkReads { site with stmt := some (.ifThen i c t (some e)) } a c.nodes
    let b ← t.assigns site a
    let d ← e.assigns site a
    if b == d then .ok d else .error (site.atStmt (.ifThen i c t (some e)) .finalInOneBranch)
  | .whileLoop i c b, a => do
    Node.checkReads { site with stmt := some (.whileLoop i c b) } a c.nodes
    b.assigns site a
  | .doWhile i b c, a => do
    let d ← b.assigns site a
    Node.checkReads { site with stmt := some (.doWhile i b c) } d c.nodes
    return d
  | .forLoop i init c update b, a => do
    let d ← (match init with
      | none => .ok a
      | some s => s.assigns site a)
    Node.checkReads { site with stmt := some (.forLoop i init c update b) } d c.nodes
    let d ← (match update with
      | none => .ok d
      | some s => s.assigns site d)
    b.assigns site d
  | .assign i l r o b, a => do
    let s := Stmt.assign i l r o b
    Node.checkReads { site with stmt := some s } a r.nodes
    l.markAssigned (site.atStmt s .finalReassigned) a
  | .block b, a => b.assigns site a
  | .seq _ ss _, a => Stmt.assignsAll site ss a
  | s, a => do
    Node.checkReads { site with stmt := some s } a s.nodes
    return a

def Block.assigns (site : Site) : Block → Assigned → Except Error Assigned
  | ⟨_, ss, _⟩, a => Stmt.assignsAll site ss a

def Stmt.assignsAll (site : Site) : List Stmt → Assigned → Except Error Assigned
  | [], a => .ok a
  | s :: ss, a => do
    let a ← s.assigns site a
    Stmt.assignsAll site ss a

end

/-- The final variables that the constructor has to assign. -/
def Contract.unassigned (c : Contract) : Assigned :=
  (c.stateVars.filter fun v => v.keywords.contains "final" && v.init.isNone).map fun v => (v.id, false)

def Contract.checkFinality (text : List String) (c : Contract) : Except Error Unit := do
  let site : Site := ⟨some text, some c.name, none, none⟩
  let assigned ← (match c.constructors with
    | [] => .ok c.unassigned
    | [f] => f.body.assigns { site with function := some f.title } c.unassigned
    | _ :: g :: _ => .error (site.atFunction g .severalConstructors))
  if assigned.all (·.2) then .ok () else .error (site.atDecl .finalUnset)

/-- Every final variable is assigned exactly once before it is read. -/
def SourceUnit.checkFinality (u : SourceUnit) : Except Error Unit := do
  for c in u.contracts do
    c.checkFinality u.text

end Shroud
