/-
The reserved words of EVAL: types, control flow, truth values, built-in functions and built-in
constants. Case matters.
-/
namespace EvlCheck

inductive Keyword where
  | int | float | string | bool
  | const | if | else | while | try | catch
  | true | false
  | print | cast | pow | sqrt | min | max | round | abs
  | pi | daysInWeek | hoursInDay | year
  deriving Repr, DecidableEq, Inhabited

namespace Keyword

def all : List Keyword :=
  [ .int, .float, .string, .bool,
    .const, .if, .else, .while, .try, .catch,
    .true, .false,
    .print, .cast, .pow, .sqrt, .min, .max, .round, .abs,
    .pi, .daysInWeek, .hoursInDay, .year ]

def text : Keyword → String
  | .int => "int"
  | .float => "float"
  | .string => "string"
  | .bool => "bool"
  | .const => "const"
  | .if => "if"
  | .else => "else"
  | .while => "while"
  | .try => "try"
  | .catch => "catch"
  | .true => "true"
  | .false => "false"
  | .print => "print"
  | .cast => "cast"
  | .pow => "pow"
  | .sqrt => "sqrt"
  | .min => "min"
  | .max => "max"
  | .round => "round"
  | .abs => "abs"
  | .pi => "PI"
  | .daysInWeek => "DAYS_IN_WEEK"
  | .hoursInDay => "HOURS_IN_DAY"
  | .year => "YEAR"

def terminal : Keyword → String
  | .int => "INT"
  | .float => "FLOAT"
  | .string => "STRING_TYPE"
  | .bool => "BOOL"
  | .const => "CONST"
  | .if => "IF"
  | .else => "ELSE"
  | .while => "WHILE"
  | .try => "TRY"
  | .catch => "CATCH"
  | .true => "TRUE"
  | .false => "FALSE"
  | .print => "PRINT"
  | .cast => "CAST"
  | .pow => "POW"
  | .sqrt => "SQRT"
  | .min => "MIN"
  | .max => "MAX"
  | .round => "ROUND"
  | .abs => "ABS"
  | .pi => "PI"
  | .daysInWeek => "DAYS_IN_WEEK"
  | .hoursInDay => "HOURS_IN_DAY"
  | .year => "YEAR"

def ofText? (s : String) : Option Keyword :=
  all.find? fun k => k.text == s

def isType : Keyword → Bool
  | .int | .float | .string | .bool => Bool.true
  | _ => Bool.false

def isFunction : Keyword → Bool
  | .print | .cast | .pow | .sqrt | .min | .max | .round | .abs => Bool.true
  | _ => Bool.false

def isConstant : Keyword → Bool
  | .pi | .daysInWeek | .hoursInDay | .year => Bool.true
  | _ => Bool.false

theorem ofText?_text (k : Keyword) : ofText? k.text = some k := by cases k <;> rfl

theorem text_of_ofText? {s : String} {k : Keyword} (h : ofText? s = some k) : k.text = s := by
  simpa using List.find?_some h

end Keyword

end EvlCheck
