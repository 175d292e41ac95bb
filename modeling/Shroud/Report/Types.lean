import Shroud.Report.Basic

/-!
# Reports about types, operators and backends
-/

namespace Shroud

/-- What is known about a type. Copying a type links it again, which may fail. -/
def Ty.facts (t : Ty) : Except Error Report := do
  let code ← t.report
  let bits := match t.bits? with
    | some n => Report.int n
    | none => .failed (.unwritten "")
  return .object [("code", code), ("kind", .text t.kind), ("primitive", .bool t.isPrimitive),
    ("literal", .bool t.isLiteral), ("numeric", .bool t.isNumeric), ("signed", .bool t.isSignedNumeric),
    ("address", .bool t.isAddress), ("cipher", .bool t.isCipher), ("private", .bool t.canBePrivate),
    ("bits", bits), ("uints", .int t.sizeInWords), ("clone", .attempt (do t.checkCopy; t.report)),
    ("clone_eq", .attempt (do t.checkCopy; return .bool t.equalsCopy))]

def Combined.report : Combined → Report
  | .none => .null
  | .literal => .text "lit"
  | .type t => .attempt t.report

/-- How two types relate, in both directions. -/
def Ty.relation (a b : Ty) : Report :=
  let converts (t u : Ty) : Report := if t.asksRange u then .failed .noRange else .bool (t.convertsTo u)
  let common (declare : Bool) (t u : Ty) : Report :=
    if t.combineAsksRange u then .failed .noRange else (t.combine declare u).report
  .object [("eq", .bools [a.same b, b.same a]), ("implicit", .list [converts a b, converts b a]),
    ("explicit", .bools [a.castsTo b, b.castsTo a]),
    ("combined", .list [common false a b, common true a b, common false b a, common true b a])]

/-- A type that was given an owner. -/
def AnnTy.facts (t : AnnTy) : Except Error Report := do
  return .object [("code", ← t.report), ("public", .bool t.isPublic), ("annotated", .bool t.annotated)]

/-- How the type of a literal relates to named types. -/
def literalFacts (v : Int) (types : List (String × Ty)) : Except Error Report :=
  let t := Ty.numLit v
  if types.any fun (_, u) => !u.hasRange then .error .noRange
  else .ok <| .object [("bits", .nat (literalWidth v)), ("signed", .bool t.isSignedNumeric), ("name", .text t.code),
    ("abstract", .text t.abstract.code),
    ("fits", .object (types.map fun (n, u) => (n, .bool (u.canRepresent v)))),
    ("converts", .object (types.map fun (n, u) => (n, .bool (t.convertsTo u))))]

def OpCategory.name : OpCategory → String
  | .parenthesis => "parenthesis"
  | .ite => "ite"
  | .arithmetic => "arithmetic"
  | .comparison => "comp"
  | .equality => "eq"
  | .logical => "bop"
  | .bitwise => "bitop"
  | .shift => "shiftop"

def Value.report : Value → Report
  | .bool b => .bool b
  | .int i => .text (decimal i)

/-- What is known about an operator, and its value on constants. -/
def Op.facts (o : Op) (args : Option (List Value)) : Report :=
  let input : Option Ty := if o.isLogical then some .bool else if o.takesNumbers then some .number else none
  let output : Option Ty := if o.givesBool then some .bool else if o.givesNumber then some .number else none
  let value := match args with
    | none => []
    | some vs => [("value", match o.eval vs with
        | .ok v => v.report
        | .error e => .failed (.ofOpError e))]
  .object ([("format", .text ("\x7b\x7d".intercalate o.pieces)), ("arity", .nat o.arity),
    ("category", .text o.category.name),
    ("is", .bools [o.isArithmetic, o.isComparison, o.isEquality, o.isLogical, o.isBitwise, o.isShift,
      o == .paren, o == .ite]),
    ("short", .bool o.shortCircuits), ("private", .bool o.canBePrivate),
    ("in", match input with
      | some t => .texts (List.replicate o.arity t.kind)
      | none => .null),
    ("out", .text? (output.map Ty.kind))] ++ value)

def HomOverload.report (o : HomOverload) : Report :=
  .list [.text o.op, .text o.hom.name, .bools o.publicArgs]

/-- The sizes of a backend. -/
def Backend.facts (b : Backend) : Report :=
  .object [("identifier", .text b.identifier), ("key_bits", .nat b.sizes.keyBits), ("key_len", .nat b.keyLen),
    ("rnd_len", .nat b.randomnessLen), ("symmetric", .bool b.symmetric), ("chunk", .nat b.sizes.chunkBytes),
    ("payload_len", .nat b.payloadLen), ("cipher_len", .nat b.cipherLen),
    ("signed_as_unsigned", .bool b.sizes.signedAsUnsigned),
    ("repr", .text ("CryptoParams(" ++ b.name ++ ")")),
    ("homs", Hom.reports (Hom.all.filter b.sizes.homs.contains)), ("same", .texts [b.name])]

/-- A node in written form, if it has one, with the kinds of the nodes below it. -/
def Node.codeReport (s : Style) (n : Node) : Except Error Report :=
  if n.isPrintable then .ok (.object [("code", .text? (n.code? s)), ("nodes", .texts (n.all.map Node.kind))])
  else .error .functionType

end Shroud
