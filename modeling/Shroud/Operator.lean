/-!
# Built-in operators

The operators of the language with their printed form, their category and their value on constants.

**Values.** Constants are booleans or integers of any size. In arithmetic `true` counts as one and `false`
as zero; the bitwise connectives keep two booleans boolean. Division and remainder round towards minus
infinity, so a remainder has the sign of its divisor.
-/

namespace Shroud

/-- What an operator works on. -/
inductive OpCategory where
  | parenthesis | ite | arithmetic | comparison | equality | logical | bitwise | shift
  deriving DecidableEq, Repr

/-- The built-in operators in declaration order. -/
inductive Op where
  | paren | ite | plus | minus | not | complement
  | pow | mul | div | mod | add | sub
  | lt | gt | le | ge
  | eq | ne
  | and | or
  | bitOr | bitAnd | bitXor
  | shl | shr
  deriving DecidableEq, Repr, Inhabited

/-- A constant. -/
inductive Value where
  | bool (b : Bool)
  | int (i : Int)
  deriving DecidableEq, Repr, Inhabited

/-- Why an operator has no value on its operands. -/
inductive OpError where
  | divisionByZero
  | negativeShift
  | undefined
  deriving DecidableEq, Repr

namespace Op

def all : List Op :=
  [.paren, .ite, .plus, .minus, .not, .complement, .pow, .mul, .div, .mod, .add, .sub, .lt, .gt, .le,
   .ge, .eq, .ne, .and, .or, .bitOr, .bitAnd, .bitXor, .shl, .shr]

theorem mem_all (o : Op) : o ∈ all := by cases o <;> decide

/-- The operator's name. The two signs are told apart from sum and difference. -/
def name : Op → String
  | .paren => "parenthesis"
  | .ite => "ite"
  | .plus => "sign+"
  | .minus => "sign-"
  | .not => "!"
  | .complement => "~"
  | .pow => "**"
  | .mul => "*"
  | .div => "/"
  | .mod => "%"
  | .add => "+"
  | .sub => "-"
  | .lt => "<"
  | .gt => ">"
  | .le => "<="
  | .ge => ">="
  | .eq => "=="
  | .ne => "!="
  | .and => "&&"
  | .or => "||"
  | .bitOr => "|"
  | .bitAnd => "&"
  | .bitXor => "^"
  | .shl => "<<"
  | .shr => ">>"

def ofName? (s : String) : Option Op := all.find? (·.name == s)

def category : Op → OpCategory
  | .paren => .parenthesis
  | .ite => .ite
  | .plus | .minus | .pow | .mul | .div | .mod | .add | .sub => .arithmetic
  | .not | .and | .or => .logical
  | .complement | .bitOr | .bitAnd | .bitXor => .bitwise
  | .lt | .gt | .le | .ge => .comparison
  | .eq | .ne => .equality
  | .shl | .shr => .shift

/-- The texts around the operands: one more than there are operands. -/
def pieces : Op → List String
  | .paren => ["(", ")"]
  | .ite => ["", " ? ", " : ", ""]
  | .plus => ["+", ""]
  | .minus => ["-", ""]
  | .not => ["!", ""]
  | .complement => ["~", ""]
  | o => ["", " " ++ o.name ++ " ", ""]

/-- Number of operands. -/
def arity (o : Op) : Nat := o.pieces.length - 1

/-- Put printed operands between the pieces; operands beyond the arity are not shown. -/
def weave : List String → List String → String
  | p :: ps, a :: as => if ps.isEmpty then p else p ++ a ++ weave ps as
  | p :: _, [] => p
  | [], _ => ""

def format (o : Op) (args : List String) : String := weave o.pieces args

def isArithmetic (o : Op) : Bool := o.category == .arithmetic
def isComparison (o : Op) : Bool := o.category == .comparison
def isEquality (o : Op) : Bool := o.category == .equality
def isLogical (o : Op) : Bool := o.category == .logical
def isBitwise (o : Op) : Bool := o.category == .bitwise
def isShift (o : Op) : Bool := o.category == .shift

/-- Operators that may leave an operand unevaluated. -/
def shortCircuits (o : Op) : Bool := o == .ite || o == .and || o == .or

/-- Whether the operation itself has a circuit. -/
def canBePrivate (o : Op) : Bool := o != .pow && o != .mod && o != .div

/-- Operands are numbers. -/
def takesNumbers (o : Op) : Bool :=
  o.isArithmetic || o.isComparison || o.isBitwise || o.isShift

/-- The result is a truth value whatever the operands are. -/
def givesBool (o : Op) : Bool := o.isComparison || o.isLogical || o.isEquality

/-- The result is a number. -/
def givesNumber (o : Op) : Bool := o.isArithmetic || o.isBitwise || o.isShift

end Op

namespace Value

/-- The value in arithmetic. -/
def toInt : Value → Int
  | .bool b => if b then 1 else 0
  | .int i => i

/-- The value as a condition. -/
def truthy : Value → Bool
  | .bool b => b
  | .int i => i != 0

/-- Two's complement conjunction of integers of any size. -/
def bitAnd : Int → Int → Int
  | .ofNat a, .ofNat b => ((a &&& b : Nat) : Int)
  | .ofNat a, .negSucc b => ((a - (a &&& b) : Nat) : Int)
  | .negSucc a, .ofNat b => ((b - (b &&& a) : Nat) : Int)
  | .negSucc a, .negSucc b => .negSucc (a ||| b)

/-- Two's complement disjunction, by De Morgan's law. -/
def bitOr (a b : Int) : Int := -(bitAnd (-a - 1) (-b - 1)) - 1

/-- Two's complement exclusive disjunction. -/
def bitXor (a b : Int) : Int := bitAnd (bitOr a b) (-(bitAnd a b) - 1)

end Value

namespace Op

/-- A connective that stays boolean on two booleans. -/
def connective (onBools : Bool → Bool → Bool) (onInts : Int → Int → Int) : Value → Value → Value
  | .bool a, .bool b => .bool (onBools a b)
  | a, b => .int (onInts a.toInt b.toInt)

/-- Powers with a larger exponent have too many digits to be written down. -/
def largestExponent : Nat := 4294967295

/-- A power. -/
def power (a : Int) (n : Nat) : Except OpError Value :=
  if a = 0 then .ok (.int (if n = 0 then 1 else 0))
  else if a = 1 then .ok (.int 1)
  else if a = -1 then .ok (.int (if n % 2 = 0 then 1 else -1))
  else if n ≤ largestExponent then .ok (.int (a.pow n))
  else .error .undefined

/-- The value of an operator on constants. -/
def eval : Op → List Value → Except OpError Value
  | .paren, [a] => .ok a
  | .plus, [a] => .ok a
  | .minus, [a] => .ok (.int (-a.toInt))
  | .not, [a] => .ok (.bool (!a.truthy))
  | .complement, [a] => .ok (.int (-a.toInt - 1))
  | .ite, [c, a, b] => .ok (if c.truthy then a else b)
  | .add, [a, b] => .ok (.int (a.toInt + b.toInt))
  | .sub, [a, b] => .ok (.int (a.toInt - b.toInt))
  | .mul, [a, b] => .ok (.int (a.toInt * b.toInt))
  | .div, [a, b] =>
    if b.toInt = 0 then .error .divisionByZero else .ok (.int (a.toInt.fdiv b.toInt))
  | .mod, [a, b] =>
    if b.toInt = 0 then .error .divisionByZero else .ok (.int (a.toInt.fmod b.toInt))
  | .pow, [a, b] =>
    if 0 ≤ b.toInt then power a.toInt b.toInt.toNat
    else .error (if a.toInt = 0 then .divisionByZero else .undefined)
  | .shl, [a, b] =>
    if b.toInt < 0 then .error .negativeShift
    else if a.toInt = 0 then .ok (.int 0)
    else (power 2 b.toInt.toNat).map fun p => .int (a.toInt * p.toInt)
  | .shr, [a, b] =>
    if b.toInt < 0 then .error .negativeShift else .ok (.int (a.toInt >>> b.toInt.toNat))
  | .lt, [a, b] => .ok (.bool (a.toInt < b.toInt))
  | .gt, [a, b] => .ok (.bool (b.toInt < a.toInt))
  | .le, [a, b] => .ok (.bool (a.toInt ≤ b.toInt))
  | .ge, [a, b] => .ok (.bool (b.toInt ≤ a.toInt))
  | .eq, [a, b] => .ok (.bool (a.toInt == b.toInt))
  | .ne, [a, b] => .ok (.bool (a.toInt != b.toInt))
  | .and, [a, b] => .ok (if a.truthy then b else a)
  | .or, [a, b] => .ok (if a.truthy then a else b)
  | .bitAnd, [a, b] => .ok (connective (· && ·) Value.bitAnd a b)
  | .bitOr, [a, b] => .ok (connective (· || ·) Value.bitOr a b)
  | .bitXor, [a, b] => .ok (connective (· != ·) Value.bitXor a b)
  | _, _ => .error .undefined

theorem ofName?_name (o : Op) : ofName? o.name = some o := by cases o <;> decide

end Op

end Shroud
