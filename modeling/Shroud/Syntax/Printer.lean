import Shroud.Text
import Shroud.Type.Convert

/-!
# Printing programs

Programs are printed as contract source. Owners are printed after an at sign; once a type has been replaced
by an encrypted one, the source type is kept next to it as a comment. Circuit directives are not printed.

**Compound assignments** to public variables are printed with their operator; to private ones they are
printed in full, because the short form would hide what the circuit computes.
-/

namespace Shroud

/-- The two choices left to whoever prints. -/
structure Style where
  showFinal : Bool
  pad : String

/-- Finality is shown and blocks are indented by four spaces. -/
def Style.default : Style := ⟨true, "    "⟩

/-- Lower-case hexadecimal digits with the usual mark. -/
def hexCode (v : Int) : String :=
  let digits := "0x" ++ String.ofList (Nat.toDigits 16 v.natAbs)
  if v < 0 then "-" ++ digits else digits

/-- Decimal digits. -/
def decimal (v : Int) : String :=
  match v with
  | .ofNat n => toString n
  | .negSucc n => "-" ++ toString (n + 1)

/-- An integer type with its digits as they are written. -/
def integerName (signed : Bool) (width : Width) : String :=
  (if signed then "int" else "uint") ++ width.digits

def boolName (b : Bool) : String := if b then "true" else "false"

def arrayCode (element : String) (length : String) : String := element ++ "[" ++ length ++ "]"

mutual

def Ty.code : Ty → String
  | .elementary n => n
  | .bool => "bool"
  | .boolLit b => boolName b
  | .number => ""
  | .numLit v => decimal v
  | .integer s w => integerName s w
  | .named _ ns _ => ".".intercalate ns
  | .address p => if p then "address payable" else "address"
  | .mapping _ k l v =>
    let label := match l with
      | none => ""
      | some n => "!" ++ n
    "mapping(" ++ k.code ++ label ++ " => " ++ v.code ++ ")"
  | .array v none => arrayCode v.code ""
  | .array v (some n) => arrayCode v.code n.code
  | .cipher _ b => arrayCode "uint" (toString b.cipherLen)
  | .publicKey b => arrayCode "uint" (toString b.keyLen)
  | .randomness b => arrayCode "uint" (if b.randomnessLen = 0 then "" else toString b.randomnessLen)
  | .tuple ts => "(" ++ ", ".intercalate (AnnTy.codes ts) ++ ")"
  | .function _ _ _ => "<function>"

def AnnTy.code : AnnTy → String
  | ⟨t, p, h, annotated, none⟩ => if annotated then t.code ++ "@" ++ p.code ++ h.mark else t.code
  | ⟨t, _, _, _, some d⟩ =>
    if d.type.same t then
      (if d.annotated then t.code ++ "/*@" ++ d.ownerCode ++ "*/" else t.code)
    else if d.type.isPrimitive then t.code ++ "/*" ++ d.code ++ "*/"
    else t.code

/-- The owner with the mark of its homomorphism. -/
def AnnTy.ownerCode : AnnTy → String
  | ⟨_, p, h, _, _⟩ => p.code ++ h.mark

def AnnTy.codes : List AnnTy → List String
  | [] => []
  | t :: ts => t.code :: AnnTy.codes ts

def Info.typeCode : Info → String
  | ⟨_, _, some t, _, _⟩ => t.code
  | ⟨_, _, none, _, _⟩ => ""

def Expr.code : Expr → String
  | .operator _ op _ _ _ => op.name
  | .call _ f args _ _ =>
    match f with
    | .operator _ op _ _ _ => op.format (Expr.codes args)
    | _ => f.code ++ "(" ++ ", ".intercalate (Expr.codes args) ++ ")"
  | .new i args => "new " ++ i.typeCode ++ "(" ++ ", ".intercalate (Expr.codes args) ++ ")"
  | .cast _ t e implicit => if implicit then e.code else t.code ++ "(" ++ e.code ++ ")"
  | .boolLit _ b => boolName b
  | .numLit _ v hex => if hex then hexCode v else decimal v
  | .arrayLit _ vs _ => "[" ++ ", ".intercalate (Expr.codes vs) ++ "]"
  | .tuple _ es => "(" ++ ", ".intercalate (Expr.codes es) ++ ")"
  | .ident _ n _ => n.name
  | .member _ e n _ => e.code ++ "." ++ n.name
  | .index _ e k _ => e.code ++ "[" ++ k.code ++ "]"
  | .me _ => "me"
  | .all _ => "all"
  | .reclassify _ form e p h =>
    match form with
    | .rehom => (h.getD .nonHomomorphic).rehomName ++ "(" ++ e.code ++ ")"
    | .reveal => "reveal" ++ (h.getD .nonHomomorphic).mark ++ "(" ++ e.code ++ ", " ++ p.code ++ ")"
    | .encrypt => "enc" ++ (h.getD .nonHomomorphic).mark ++ "(" ++ e.code ++ ", " ++ p.code ++ ")"

def Expr.codes : List Expr → List String
  | [] => []
  | e :: es => e.code :: Expr.codes es

end

/-! ## Declarations and statements -/

/-- Keywords as shown. -/
def Style.keywords (s : Style) (ks : List String) : List String :=
  ks.filter fun k => s.showFinal || k != "final"

/-- A storage location is shown unless it is empty. -/
def storageText (o : Option String) : Option String :=
  match o with
  | some "" => none
  | o => o

def LocalVar.code (s : Style) (v : LocalVar) : String :=
  let storage := match storageText v.storage with
    | none => ""
    | some l => " " ++ l
  Text.joinNonempty " " [" ".intercalate (s.keywords v.keywords), v.type.code ++ storage, v.name]

def Param.code (s : Style) (p : Param) : String :=
  let final := if s.showFinal && p.keywords.contains "final" then ["final"] else []
  " ".intercalate (final ++ [p.type.code] ++ (storageText p.storage).toList ++ p.name.toList)

/-- A comment line, or a comment block if the text has several lines. -/
def commentCode (text : String) : String :=
  if text = "" then ""
  else if text.toList.contains '\n' then "/* " ++ text ++ " */"
  else "// " ++ text

/-- The operand that a compound assignment shows. -/
def compoundOperand (rhs : Expr) : Expr :=
  match rhs with
  | .call _ _ args _ _ => args.getD 1 rhs
  | .new _ args => args.getD 1 rhs
  | e => e

def assignCode (lhs rhs : Expr) (op : String) : String :=
  let op := if (lhs.type?.map AnnTy.isPrivate).getD false then "" else op
  if Text.startsWith "pre" op then Text.drop 3 op ++ lhs.code ++ ";"
  else if Text.startsWith "post" op then lhs.code ++ Text.drop 4 op ++ ";"
  else
    let shown := if op = "" then rhs else compoundOperand rhs
    lhs.code ++ " " ++ op ++ "= " ++ shown.code ++ ";"

/-- Braces around the printed statements. -/
def bracedCode (s : Style) (lines : List String) (bare : Bool) : String :=
  let body := Text.trimEnd (Text.indent s.pad ("\n".intercalate lines))
  if bare then body else "\x7b\n" ++ body ++ "\n\x7d"

mutual

/-- The printed statement; circuit directives have none. -/
def Stmt.code? (s : Style) : Stmt → Option String
  | .ifThen _ c t none => some ("if (" ++ c.code ++ ") " ++ t.code s)
  | .ifThen _ c t (some e) => some ("if (" ++ c.code ++ ") " ++ t.code s ++ "\n else " ++ e.code s)
  | .whileLoop _ c b => some ("while (" ++ c.code ++ ") " ++ b.code s)
  | .doWhile _ b c => some ("do " ++ b.code s ++ " while (" ++ c.code ++ ");")
  | .forLoop _ init c update b =>
    let init := match init with
      | none => ";"
      | some i => (i.code? s).getD "None"
    let update := match update with
      | none => ""
      | some u => " " ++ Text.dropLast ((u.code? s).getD "None")
    some ("for (" ++ init ++ " " ++ c.code ++ ";" ++ update ++ ") " ++ b.code s)
  | .breakLoop _ => some "break;"
  | .continueLoop _ => some "continue;"
  | .ret _ none => some "return;"
  | .ret _ (some e) => some ("return " ++ e.code ++ ";")
  | .eval _ e => some (e.code ++ ";")
  | .require _ c => some ("require(" ++ c.code ++ ");")
  | .assign _ l r o _ => some (assignCode l r o)
  | .declare _ v none => some (v.code s ++ ";")
  | .declare _ v (some e) => some (v.code s ++ " = " ++ e.code ++ ";")
  | .block b => some (b.code s)
  | .seq _ ss _ => some ("\n".intercalate (Stmt.codes s ss))
  | .compute _ _ => none
  | .enterKey _ _ => none
  | .comment t => some (commentCode t)
  | .blank => some ""

def Block.code (s : Style) : Block → String
  | ⟨_, stmts, single⟩ => bracedCode s (Stmt.codes s stmts) (single && stmts.length == 1)

def Stmt.codes (s : Style) : List Stmt → List String
  | [] => []
  | x :: xs =>
    match x.code? s with
    | none => Stmt.codes s xs
    | some t => t :: Stmt.codes s xs

end

/-- The statement in the usual style, as it appears in messages and comments. -/
def Stmt.text (s : Stmt) : String := (s.code? .default).getD "None"

def StateVar.code (s : Style) (v : StateVar) : String :=
  let ks := s.keywords v.keywords
  let final := if ks.contains "final" then "final" else ""
  let head := Text.joinNonempty " "
    [final, v.type.code, " ".intercalate (ks.filter (· ≠ "final")), v.name]
  match v.init with
  | none => head ++ ";"
  | some e => head ++ " = " ++ e.code ++ ";"

def StateItem.code (s : Style) : StateItem → String
  | .var v => v.code s
  | .comment t => commentCode t
  | .blank => ""

def EnumDef.code (s : Style) (e : EnumDef) : String :=
  "enum " ++ e.name ++ " \x7b\n" ++
    Text.indent s.pad (", ".intercalate (e.values.map (·.name))) ++ "\n\x7d"

def StructDef.code (s : Style) (d : StructDef) : String :=
  "struct " ++ d.name ++ " \x7b\n" ++
    Text.indent s.pad ("\n".intercalate (d.members.map fun m => m.code s ++ ";")) ++ "\n\x7d"

def FunctionDef.code (s : Style) (f : FunctionDef) : String :=
  let head := match f.name with
    | none => "constructor"
    | some n => "function " ++ n
  let params := "(" ++ ", ".intercalate (f.params.map (Param.code s)) ++ ")"
  let mods := if f.modifiers.isEmpty then "" else " " ++ " ".intercalate f.modifiers
  let returns := ", ".intercalate (f.returns.map (Param.code s))
  let returns := if returns = "" then "" else " returns (" ++ returns ++ ")"
  head ++ params ++ mods ++ returns ++ " " ++ f.body.code s

def Contract.code (s : Style) (c : Contract) : String :=
  let sections := [
    "\n\n".intercalate (c.structs.map (StructDef.code s)),
    "\n\n".intercalate (c.enums.map (EnumDef.code s)),
    "\n".intercalate (c.state.map (StateItem.code s)),
    "\n\n".intercalate (c.constructors.map (FunctionDef.code s)),
    "\n\n".intercalate (c.functions.map (FunctionDef.code s))]
  "contract " ++ c.name ++ " \x7b\n" ++ Text.indent s.pad (Text.joinNonempty "\n\n" sections) ++
    "\n\x7d"

def SourceUnit.code (s : Style) (u : SourceUnit) : String :=
  Text.joinNonempty "\n\n" [u.pragma, "\n".intercalate (u.contracts.map (Contract.code s))]

end Shroud
