import Shroud.Syntax.Printable

/-!
# What can be wrong with a program

Every complaint about a program is one constructor of `Fault`; its wording stands in `Fault.message` and
its sort in `Fault.kind`. A complaint about the compiler's own work is a `Defect`.

**Types in messages.** A message may mention a type. Function types have no written form, so a complaint
that mentions one cannot be worded; `Fault.isWordable` tells.
-/

namespace Shroud

/-- The sorts of complaints. -/
inductive FaultKind where
  | unknownIdentifier | returnPosition | type | mismatch | require | reclassify | circuit
  deriving DecidableEq, Repr

/-- A type mentioned in a message, with or without its owner, or none at all. -/
inductive Mention where
  | bare (t : Ty)
  | full (t : AnnTy)
  | missing

namespace Mention

def text : Mention → String
  | .bare t => t.code
  | .full t => t.code
  | .missing => "None"

def isWordable : Mention → Bool
  | .bare t => t.isPrintable
  | .full t => t.isPrintable
  | .missing => true

/-- The type found for an expression. -/
def ofType? (t : Option AnnTy) : Mention :=
  match t with
  | some t => .full t
  | none => .missing

end Mention

/-- Complaints about a program. -/
inductive Fault where
  -- names
  | overloading
  | undefined (name : String)
  | noArrayMember (name : String)
  | noMember (name : String)
  -- structure
  | returnPosition
  | assignedTwice
  | writtenTwice (locations : List String)
  | writtenAndRead (locations : List String)
  -- final variables
  | severalConstructors
  | finalUnset
  | finalReassigned
  | finalInOneBranch
  | finalReadEarly (code : String)
  -- types
  | mismatch (expected actual : Mention)
  | notLocation
  | assignFixed (keyword name : String)
  | privateRequire
  | constructorReturns
  | castNotEnum
  | invalidCall
  | notCallable (code : String)
  | argumentCount (code : String) (count : Nat)
  | incompatibleOperands (op : String)
  | noPrivateOperation (op : String)
  | shiftNotLiteral
  | negativeShift
  | wideBitwise
  | needsAccessible (op : String)
  | badCast (source target : Ty)
  | memberUnresolved (name : String)
  | privateAddressMember
  | reclassifyTarget (func : String)
  | reclassifyInaccessible (func : String)
  | rehomPublic (func : String)
  | reclassifyRedundant (func owner : String) (hom : Hom)
  | cannotBePrivate (t : Ty)
  | contractValue
  | indexPrivate
  | keyNotOwner (container : AnnTy)
  | indexNotPublic
  | indexNotNumeric
  | notIndexable
  | parameterOwner
  | returnOwner
  | privateInitializer
  | stateOwnedByMe
  | keyNotAddress
  | notEnum
  | publicHomomorphic (t : Ty)
  | cannotBeHomomorphic (t : Ty) (reason : String)
  | ownerNotFinal
  | ownerNotAddress (t : AnnTy)
  -- circuits
  | privateIfReveals
  | privateIfReference
  | privateIfForeign
  | privateSideEffects
  | privateLoopCall
  | privateUnsupportedCall
  | recursivePrivateCall
  | privateLoopCondition
  | privateLoopBody
  | privateLoopUpdate
  | privateLoop

namespace Fault

def kind : Fault → FaultKind
  | .overloading | .undefined _ | .noArrayMember _ | .noMember _ => .unknownIdentifier
  | .returnPosition => .returnPosition
  | .mismatch _ _ => .mismatch
  | .privateRequire => .require
  | .reclassifyTarget _ | .reclassifyInaccessible _ | .rehomPublic _ | .reclassifyRedundant _ _ _ =>
    .reclassify
  | .privateIfReveals | .privateIfReference | .privateIfForeign | .privateSideEffects
  | .privateLoopCall | .privateUnsupportedCall | .privateLoopCondition | .privateLoopBody
  | .privateLoopUpdate | .privateLoop => .circuit
  | _ => .type

/-- Locations in order, in braces. -/
def locationSet (names : List String) : String :=
  "\x7b" ++ ", ".intercalate (Text.sort names) ++ "\x7d"

/-- Why evaluation order matters. -/
def evaluationOrder : String :=
  "Solidity leaves the evaluation order of non-shortcircuiting expressions unspecified, " ++
    "but zkay has to simulate every transaction locally with well-defined semantics."

def message : Fault → String
  | .overloading => "Zkay does not currently support method overloading."
  | .undefined n => "Undefined identifier " ++ n
  | .noArrayMember n => "Arrays have no member " ++ n
  | .noMember n => "Unknown member " ++ n
  | .returnPosition => "Return statements are only allowed at the end of a function."
  | .assignedTwice =>
    "Undefined behavior, the same location is assigned more than once in a tuple assignment"
  | .writtenTwice ls =>
    "Undefined behavior, " ++ locationSet ls ++ " may be modified by more than one subexpression.\n" ++
      evaluationOrder
  | .writtenAndRead ls =>
    "Undefined behavior, this subexpression may modify " ++ locationSet ls ++
      " which is read by a sibling subexpression.\n" ++ evaluationOrder
  | .severalConstructors => "Multiple constructors are not supported"
  | .finalUnset => "Did not set all final state variables"
  | .finalReassigned => "Tried to reassign final variable"
  | .finalInOneBranch => "Final value is not assigned in both branches"
  | .finalReadEarly c => c ++ " is reading \"final\" state variable before writing it"
  | .mismatch e a => "Expected type " ++ e.text ++ " but got " ++ a.text
  | .notLocation => "Left hand side of an assignment must be a location"
  | .assignFixed k n => "Cannot assign to " ++ k ++ " variable " ++ n
  | .privateRequire => "The condition of require must be public"
  | .constructorReturns => "A constructor cannot return a value"
  | .castNotEnum => "Only enum types can be used in casts"
  | .invalidCall => "Invalid function call"
  | .notCallable c => c ++ " is not callable"
  | .argumentCount c n => c ++ " expects " ++ toString n ++ " arguments"
  | .incompatibleOperands o => "Operands of '" ++ o ++ "' have incompatible types"
  | .noPrivateOperation o => "Operation '" ++ o ++ "' cannot be evaluated on private values"
  | .shiftNotLiteral => "The shift amount of a private shift must be a literal"
  | .negativeShift => "Negative shift amount"
  | .wideBitwise => "Private bitwise operations and shifts need operands narrower than 256 bit"
  | .needsAccessible o => "Operation '" ++ o ++ "' needs accessible operands (@all or provably @me)"
  | .badCast s t => "Cannot cast " ++ s.code ++ " to " ++ t.code
  | .memberUnresolved n => "Unknown member " ++ n
  | .privateAddressMember => "Members of private addresses cannot be accessed"
  | .reclassifyTarget f => "The target of \"" ++ f ++ "\" is not a privacy label"
  | .reclassifyInaccessible f =>
    "The argument of \"" ++ f ++ "\" must be @all or provably owned by me"
  | .rehomPublic f => "\"" ++ f ++ "\" cannot be applied to a public value"
  | .reclassifyRedundant f o h =>
    "Redundant \"" ++ f ++ "\", the argument already has type @" ++ o ++ h.mark
  | .cannotBePrivate t => "Type " ++ t.code ++ " cannot be private"
  | .contractValue => "Contract types cannot be used as values"
  | .indexPrivate => "Private values cannot be indexed"
  | .keyNotOwner c => "The key of " ++ c.code ++ " must be usable as an owner"
  | .indexNotPublic => "Array index must be public"
  | .indexNotNumeric => "Array index must be numeric"
  | .notIndexable => "Only mappings and arrays can be indexed"
  | .parameterOwner => "Function parameters must be @me or @all"
  | .returnOwner => "Return values of public functions must be @me or @all"
  | .privateInitializer =>
    "State variable initializers must be public, " ++
      "private state has to be initialized in the constructor"
  | .stateOwnedByMe => "State variables cannot be owned by me"
  | .keyNotAddress => "Only address keys can be used as owners"
  | .notEnum => "Enums are the only supported user defined types"
  | .publicHomomorphic t => "Public type " ++ t.code ++ " cannot be homomorphic"
  | .cannotBeHomomorphic t r =>
    t.code ++ " cannot be homomorphic (" ++ r ++ "), only unsigned integers up to 32 bit are supported"
  | .ownerNotFinal => "Owner variables must be final or constant"
  | .ownerNotAddress t => "Owner must be a public address, not " ++ t.code
  | .privateIfReveals => "Private if statements must not reveal information to other parties"
  | .privateIfReference => "Private if statements must not write variables of non-primitive type"
  | .privateIfForeign => "Private if statements must only write variables owned by me"
  | .privateSideEffects => "Private expressions must not have side effects"
  | .privateLoopCall => "Private expressions must not call functions with loops or recursion"
  | .privateUnsupportedCall =>
    "Private expressions must not call functions with operations which cannot be expressed as a circuit"
  | .recursivePrivateCall => "Non-inlineable call to recursive private function"
  | .privateLoopCondition => "Loop condition cannot contain private expressions"
  | .privateLoopBody => "Loop body cannot contain private expressions"
  | .privateLoopUpdate => "Loop update expression cannot contain private expressions"
  | .privateLoop => "Loops must not contain private expressions"

/-- Everything the message mentions has a written form. -/
def isWordable : Fault → Bool
  | .mismatch e a => e.isWordable && a.isWordable
  | .badCast s t => s.isPrintable && t.isPrintable
  | .cannotBePrivate t | .publicHomomorphic t | .cannotBeHomomorphic t _ => t.isPrintable
  | .keyNotOwner t | .ownerNotAddress t => t.isPrintable
  | _ => true

end Fault

/-- Situations that only a mistake of the compiler, or a direct use of its parts, can bring about. -/
inductive Defect where
  | cannotConvert (source target : Ty)
  | allAccessible
  | noPublicLocation (name : String)
  | convertsReference (t : Ty)
  | notLabel (code : String)
  | redundantReclassify (code : String)
  | rehomTarget (t : AnnTy)
  | rehomForeign
  | redundantRehom (code : String)
  | publicHomomorphism
  | aliasUnsupported (kind : String)
  | noVerifier (func : String)
  | sizesDisagree (func : String)
  | notStaticOwner (label : String)
  | privateIfForeignWrite
  | privateIfReference
  | noCircuit (func : String)
  | dynamicOwner (owner : String)
  | indexAssigned
  | alreadyOutput (code : String)
  | unsupportedStatement (kind : String)
  | severalReturns (func : String)
  | callTarget (code : String)
  | splitCallTarget
  | unexpectedExpression (kind : String)
  | contractValueInCircuit (name : String)
  | reclassifiesForeign (code : String)
  | unsupportedCast (code : String)
  | cannotInline (func : String)
  | circuitStatement (kind : String)
  | calleeWithoutCircuit (func : String)
  | sizesInconsistent (func : String)
  | unlinkedName (name : String)
  | notVersions

namespace Defect

def message : Defect → String
  | .cannotConvert s t => "Cannot convert " ++ s.code ++ " to " ++ t.code
  | .allAccessible => "Cannot select homomorphic overload if all arguments are accessible"
  | .noPublicLocation n => n ++ " has no location in public code"
  | .convertsReference t => "Implicit conversion of non-primitive " ++ t.code
  | .notLabel c => c ++ " is not a privacy label"
  | .redundantReclassify c => "Redundant reclassification of " ++ c ++ " to all"
  | .rehomTarget t => "Invalid rehom target " ++ t.code
  | .rehomForeign => "Only values owned by me can be re-encrypted"
  | .redundantRehom c => "Redundant rehom of " ++ c
  | .publicHomomorphism => "Public values have no homomorphism"
  | .aliasUnsupported k => "Alias analysis does not support " ++ k
  | .noVerifier f => "No verification contract registered for " ++ f
  | .sizesDisagree f => "Circuit of " ++ f ++ " disagrees with hybrid function detection"
  | .notStaticOwner l => l ++ " is not a static owner label"
  | .privateIfForeignWrite => "Private if statement writes a value which is not owned by me"
  | .privateIfReference => "Reference types inside private if statements are not supported"
  | .noCircuit f => f ++ " does not have a circuit"
  | .dynamicOwner o => "Key of dynamic owner " ++ o ++ " requested outside of a statement"
  | .indexAssigned => "Assignments to index expressions are not supported inside circuits"
  | .alreadyOutput c => c ++ " is already a circuit output"
  | .unsupportedStatement k => "Unsupported statement " ++ k
  | .severalReturns f => "Multiple return statements in " ++ f
  | .callTarget c => "Unexpected call target " ++ c
  | .splitCallTarget => "Calls to split functions must use a plain identifier"
  | .unexpectedExpression k => "Unexpected expression " ++ k ++ " in public code"
  | .contractValueInCircuit n => "Contract value " ++ n ++ " used as circuit value"
  | .reclassifiesForeign c =>
    "Reclassified expression " ++ c ++ " is neither public nor evaluated privately"
  | .unsupportedCast c => "Unsupported cast " ++ c ++ " inside circuit"
  | .cannotInline f => "Cannot inline call to " ++ f ++ " into circuit"
  | .circuitStatement k => "Unsupported statement inside circuit: " ++ k
  | .calleeWithoutCircuit f => "Called function " ++ f ++ " has no circuit"
  | .sizesInconsistent f => "Inconsistent transitive circuit sizes for " ++ f
  | .unlinkedName n => "Cannot remap unlinked identifier " ++ n
  | .notVersions => "Invalid remapper state"

end Defect

end Shroud
