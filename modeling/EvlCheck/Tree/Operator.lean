/-
The small vocabularies of the parse tree: value types, assignment operators, binary operators and
their levels, built-in functions by number of arguments, and built-in constants.
-/
import EvlCheck.Token.Basic

namespace EvlCheck

/-! ## Types -/

inductive ValueType where
  | int | float | string | bool
  deriving Repr, DecidableEq, Inhabited

namespace ValueType

def text : ValueType → String
  | .int => "int"
  | .float => "float"
  | .string => "string"
  | .bool => "bool"

/-- The type that a text spells, in lower case only. -/
def ofText? : String → Option ValueType
  | "int" => some .int
  | "float" => some .float
  | "string" => some .string
  | "bool" => some .bool
  | _ => none

def ofKeyword? : Keyword → Option ValueType
  | .int => some .int
  | .float => some .float
  | .string => some .string
  | .bool => some .bool
  | _ => none

def keyword : ValueType → Keyword
  | .int => .int
  | .float => .float
  | .string => .string
  | .bool => .bool

/-- Numbers are of the two types that convert into each other. -/
def isNumeric : ValueType → Bool
  | .int | .float => true
  | _ => false

theorem ofText?_text (t : ValueType) : ofText? t.text = some t := by cases t <;> rfl

theorem ofKeyword?_keyword (t : ValueType) : ofKeyword? t.keyword = some t := by cases t <;> rfl

end ValueType

/-! ## Operators -/

/-- How an assignment combines the value with what the variable holds. -/
inductive AssignOp where
  | assign | add | subtract | multiply | divide
  deriving Repr, DecidableEq, Inhabited

namespace AssignOp

def symbol : AssignOp → OpSymbol
  | .assign => .assign
  | .add => .plusAssign
  | .subtract => .minusAssign
  | .multiply => .multiplyAssign
  | .divide => .divideAssign

def ofSymbol? : OpSymbol → Option AssignOp
  | .assign => some .assign
  | .plusAssign => some .add
  | .minusAssign => some .subtract
  | .multiplyAssign => some .multiply
  | .divideAssign => some .divide
  | _ => none

def ofToken? : Token → Option AssignOp
  | .symbol s => ofSymbol? s
  | _ => none

def text (op : AssignOp) : String := op.symbol.text

def name : AssignOp → String
  | .assign => "Assign"
  | .add => "AddAssign"
  | .subtract => "SubAssign"
  | .multiply => "MulAssign"
  | .divide => "DivAssign"

theorem ofSymbol?_symbol (op : AssignOp) : ofSymbol? op.symbol = some op := by cases op <;> rfl

end AssignOp

/-- Groups of binary operators, from the loosest to the tightest. -/
inductive BinaryLevel where
  | equality | relational | additive | multiplicative
  deriving Repr, DecidableEq, Inhabited

namespace BinaryLevel

/-- The higher, the tighter. -/
def precedence : BinaryLevel → Nat
  | .equality => 1
  | .relational => 2
  | .additive => 3
  | .multiplicative => 4

def name : BinaryLevel → String
  | .equality => "Equality"
  | .relational => "Relational"
  | .additive => "Additive"
  | .multiplicative => "Multiplicative"

end BinaryLevel

inductive BinaryOp where
  | equal | notEqual
  | less | greater | lessEqual | greaterEqual
  | add | subtract
  | multiply | divide | modulus
  deriving Repr, DecidableEq, Inhabited

namespace BinaryOp

def level : BinaryOp → BinaryLevel
  | .equal | .notEqual => .equality
  | .less | .greater | .lessEqual | .greaterEqual => .relational
  | .add | .subtract => .additive
  | .multiply | .divide | .modulus => .multiplicative

def symbol : BinaryOp → OpSymbol
  | .equal => .equals
  | .notEqual => .notEquals
  | .less => .less
  | .greater => .greater
  | .lessEqual => .lessEqual
  | .greaterEqual => .greaterEqual
  | .add => .plus
  | .subtract => .minus
  | .multiply => .multiply
  | .divide => .divide
  | .modulus => .modulus

def ofSymbol? : OpSymbol → Option BinaryOp
  | .equals => some .equal
  | .notEquals => some .notEqual
  | .less => some .less
  | .greater => some .greater
  | .lessEqual => some .lessEqual
  | .greaterEqual => some .greaterEqual
  | .plus => some .add
  | .minus => some .subtract
  | .multiply => some .multiply
  | .divide => some .divide
  | .modulus => some .modulus
  | _ => none

def ofToken? : Token → Option BinaryOp
  | .symbol s => ofSymbol? s
  | _ => none

def text (op : BinaryOp) : String := op.symbol.text

def name : BinaryOp → String
  | .equal => "Equals"
  | .notEqual => "NotEquals"
  | .less => "LessThan"
  | .greater => "GreaterThan"
  | .lessEqual => "LessThanOrEqual"
  | .greaterEqual => "GreaterThanOrEqual"
  | .add => "Plus"
  | .subtract => "Minus"
  | .multiply => "Multiply"
  | .divide => "Divide"
  | .modulus => "Modulus"

theorem ofSymbol?_symbol (op : BinaryOp) : ofSymbol? op.symbol = some op := by cases op <;> rfl

end BinaryOp

/-! ## Built-in functions and constants -/

/-- A built-in function of one number. -/
inductive UnaryFunction where
  | sqrt | round | abs
  deriving Repr, DecidableEq, Inhabited

namespace UnaryFunction

def keyword : UnaryFunction → Keyword
  | .sqrt => .sqrt
  | .round => .round
  | .abs => .abs

def text (f : UnaryFunction) : String := f.keyword.text

def name : UnaryFunction → String
  | .sqrt => "Sqrt"
  | .round => "Round"
  | .abs => "Abs"

end UnaryFunction

/-- A built-in function of two numbers. -/
inductive BinaryFunction where
  | pow | min | max
  deriving Repr, DecidableEq, Inhabited

namespace BinaryFunction

def keyword : BinaryFunction → Keyword
  | .pow => .pow
  | .min => .min
  | .max => .max

def text (f : BinaryFunction) : String := f.keyword.text

def name : BinaryFunction → String
  | .pow => "Pow"
  | .min => "Min"
  | .max => "Max"

end BinaryFunction

/-- A constant that every program may use. -/
inductive BuiltinConstant where
  | pi | daysInWeek | hoursInDay | year
  deriving Repr, DecidableEq, Inhabited

namespace BuiltinConstant

def keyword : BuiltinConstant → Keyword
  | .pi => .pi
  | .daysInWeek => .daysInWeek
  | .hoursInDay => .hoursInDay
  | .year => .year

def ofKeyword? : Keyword → Option BuiltinConstant
  | .pi => some .pi
  | .daysInWeek => some .daysInWeek
  | .hoursInDay => some .hoursInDay
  | .year => some .year
  | _ => none

def text (c : BuiltinConstant) : String := c.keyword.text

def name : BuiltinConstant → String
  | .pi => "Pi"
  | .daysInWeek => "DaysInWeek"
  | .hoursInDay => "HoursInDay"
  | .year => "Year"

def type : BuiltinConstant → ValueType
  | .pi => .float
  | .daysInWeek | .hoursInDay | .year => .int

end BuiltinConstant

end EvlCheck
