import Shroud.Datum.Basic
import Shroud.Diagnostic.Error

/-!
# Attributes by name

Plain attributes of an expression can be set by name. An attribute that the kind of expression does not have
is refused; setting one that nothing shows has no effect.

**Parts** can only be taken away: a missing part is written `None`, a missing item of a list is left out. An
attribute that is written down as it is takes any value. So the result need not be an expression any more;
it is a view of one, which tells what is shown of it.
-/

namespace Shroud

/-- What the type of a view shows. -/
inductive ViewType where
  | kept
  | absent
  | literal
  deriving DecidableEq, Repr

/-- What is shown of an expression after one of its attributes was set: the expression as it was, its new
code and type, and the expressions that are still below it. -/
structure View where
  expr : Expr
  code : Datum
  type : ViewType
  below : List Expr

namespace Expr

/-- The attributes that every expression has, operations among them. -/
def sharedAttributes : List String :=
  ["parent", "namespace", "names", "line", "column", "modified_values", "read_values", "annotated_type",
   "statement", "evaluate_privately", "children", "override", "process_children", "is_parent_of", "code",
   "qualified_name", "explicitly_converted", "is_all_expr", "is_me_expr", "privacy_annotation_label",
   "instanceof_data_type", "unop", "binop", "ite", "instanceof", "as_type", "analysis", "all_expr",
   "me_expr"]

/-- The operations of tuples and locations. -/
def assignableAttributes : List String := ["is_lvalue", "is_rvalue", "assign"]

/-- The attributes and operations of locations. -/
def locationAttributes : List String := assignableAttributes ++ ["target", "call", "dot", "index"]

/-- The attributes of this kind of expression. -/
def ownAttributes : Expr → List String
  | .operator .. => ["op", "is_private", "homomorphism", "rerand_using"]
  | .call .. => ["func", "args", "sec_start_offset", "public_key", "is_cast"]
  | .new .. => ["args"]
  | .cast .. => ["elem_type", "expr", "is_implicit"]
  | .boolLit .. => ["value"]
  | .numLit .. => ["value", "was_hex"]
  | .arrayLit .. => ["values"]
  | .tuple .. => "elements" :: assignableAttributes
  | .ident .. => ["idf", "clone"] ++ locationAttributes
  | .member .. => ["expr", "member", "target_expr"] ++ locationAttributes
  | .index .. => ["arr", "key", "target_expr"] ++ locationAttributes
  | .me _ | .all _ => ["name", "is_immutable", "clone"]
  | .reclassify .. => ["expr", "privacy", "homomorphism", "func_name"]

/-- The expression as it is. -/
def view (e : Expr) : View := ⟨e, .text e.code, .kept, (Node.exprs e.nodes).drop 1⟩

/-- The view after a part was taken away: what is written now and which nodes remain. -/
def viewWith (e : Expr) (code : String) (below : List Node) : View :=
  { e.view with code := .text code, below := Node.exprs below }

/-- The code of a reclassification with a mark after its name. -/
def reclassifyCode (name mark arg privacy : String) : String :=
  name ++ mark ++ "(" ++ arg ++ ", " ++ privacy ++ ")"

/-- What is shown after a part of a call was taken away. -/
def viewCall (e func : Expr) (args : List Expr) (name : String) (v : Datum) : View :=
  match name, v with
  | "func", .null => e.viewWith ("None(" ++ ", ".intercalate (Expr.codes args) ++ ")") (Expr.nodesAll args)
  | "args", .list xs =>
    let code := match func with
      | .operator _ op _ _ _ => op.format (xs.map fun _ => "None")
      | f => f.code ++ "()"
    e.viewWith code func.nodes
  | _, _ => e.view

/-- What is shown after an attribute of a reclassification was set. -/
def viewReclassify (e : Expr) (form : ReclassifyForm) (arg privacy : Expr) (hom : Option Hom) (name : String)
    (v : Datum) : View :=
  let title := match form with
    | .reveal => "reveal"
    | .encrypt => "enc"
    | .rehom => (hom.getD .nonHomomorphic).rehomName
  let mark := (hom.getD .nonHomomorphic).mark
  let code (mark arg privacy : String) : String :=
    if form == .rehom then title ++ "(" ++ arg ++ ")" else reclassifyCode title mark arg privacy
  match name, v with
  | "expr", .null => e.viewWith (code mark "None" privacy.code) privacy.nodes
  | "privacy", .null => e.viewWith (code mark arg.code "None") arg.nodes
  | "homomorphism", v =>
    let mark := if v.isNull then "" else v.inText
    { e.view with code := .text (code mark arg.code privacy.code) }
  | _, _ => e.view

/-- What is shown after an attribute of a cast was set. -/
def viewCast (e : Expr) (type : Ty) (arg : Expr) (implicit : Bool) (name : String) (v : Datum) : View :=
  match name, v with
  | "elem_type", .null => e.viewWith (if implicit then arg.code else "None(" ++ arg.code ++ ")") arg.nodes
  | "expr", .null =>
    let below := Node.exprs type.nodes
    if implicit then { e.view with code := .null, below := below }
    else { e.view with code := .text (type.code ++ "(None)"), below := below }
  | "is_implicit", v =>
    { e.view with code := .text (if v.holds then arg.code else type.code ++ "(" ++ arg.code ++ ")") }
  | _, _ => e.view

/-- The code of a number literal with any value. -/
def numberCode (v : Datum) (hex : Bool) : String :=
  if hex then hexCode (v.number?.getD 0) else v.inText

/-- What is shown after an attribute of this kind of expression was set. -/
def viewOwn (e : Expr) (name : String) (v : Datum) : View :=
  match e, name, v with
  | .call _ f as _ _, name, v => e.viewCall f as name v
  | .new i _, "args", .list _ => e.viewWith ("new " ++ i.typeCode ++ "()") i.typeNodes
  | .cast _ t a b, name, v => e.viewCast t a b name v
  | .boolLit _ _, "value", v => { e.view with code := .text (boolName v.holds) }
  | .numLit _ _ hex, "value", v => { e.view with code := .text (numberCode v hex) }
  | .numLit _ n _, "was_hex", v => { e.view with code := .text (numberCode (.int n) v.holds) }
  | .arrayLit _ _ _, "values", .list _ => e.viewWith "[]" []
  | .tuple _ _, "elements", .list _ => e.viewWith "()" []
  | .ident _ _ _, "idf", .null => { e.view with code := .null }
  | .member _ _ n _, "expr", .null => e.viewWith ("None." ++ n.name) []
  | .member _ b _ _, "member", .null => e.viewWith (b.code ++ ".None") b.nodes
  | .index _ _ k _, "arr", .null => e.viewWith ("None[" ++ k.code ++ "]") k.nodes
  | .index _ b _ _, "key", .null => e.viewWith (b.code ++ "[None]") b.nodes
  | .me _, "name", v | .all _, "name", v => { e.view with code := v }
  | .reclassify _ m a p h, name, v => e.viewReclassify m a p h name v
  | e, _, _ => e.view

/-- What is shown after the type of an expression was set. -/
def viewTyped (e : Expr) (v : Datum) : View :=
  match e, v with
  | .new _ as, .null =>
    { e.viewWith ("new None(" ++ ", ".intercalate (Expr.codes as) ++ ")") (Expr.nodesAll as) with
      type := .absent }
  | e, .null => { e.view with type := .absent }
  | e, .text "lit" => { e.view with type := .literal }
  | e, _ => e.view

/-- Set an attribute. -/
def setAttribute (e : Expr) (name : String) (v : Datum) : Except Error View :=
  if name = "annotated_type" then .ok (e.viewTyped v)
  else if sharedAttributes.contains name then .ok e.view
  else if e.ownAttributes.contains name then .ok (e.viewOwn name v)
  else .error (.badValue (.noProperty e.kind name))

end Expr

end Shroud
