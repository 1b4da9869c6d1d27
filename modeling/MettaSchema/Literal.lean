import MettaSchema.Error

/-!
# Literals

What the string and integer literals of a schema stand for.

* `Literal.unquote` — the text of a string literal: without its quotes, and with
  every escaped character in place of its escape.
* `Literal.ofRadix?` — the integer that a text stands for in a base, if it has 64 bits.
* `Literal.integer`, `Literal.fieldNumber`, `Literal.enumNumber` — the number that an
  integer literal stands for, if it is in the range that its place allows.
-/

namespace MettaSchema

namespace Literal

/-! ## Strings -/

/-- Replaces each backslash and the character behind it by that character. -/
def unescape : List Char → List Char
  | [] => []
  | [c] => if c = '\\' then [] else [c]
  | c :: d :: s => if c = '\\' then d :: unescape s else c :: unescape (d :: s)

/-- The text of a string literal. -/
def unquote (literal : String) : String :=
  String.ofList (unescape literal.toList.tail.dropLast)

/-! ## Integers -/

/-- The value of a digit, up to fifteen. -/
def digitValue? (c : Char) : Option Nat :=
  if c.isDigit then some (c.toNat - 48)
  else if 'a' ≤ c ∧ c ≤ 'f' then some (c.toNat - 87)
  else if 'A' ≤ c ∧ c ≤ 'F' then some (c.toNat - 55)
  else none

/-- A number with one more digit behind it.  The digit has to be below the base. -/
def addDigit? (base n : Nat) (c : Char) : Option Nat :=
  match digitValue? c with
  | some d => if d < base then some (base * n + d) else none
  | none => none

/-- The number that a sequence of digits stands for.  There has to be a digit. -/
def ofDigits? (base : Nat) (digits : List Char) : Option Nat :=
  if digits = [] then none else digits.foldlM (addDigit? base) 0

/-- The least integer of 64 bits. -/
def minInteger : Int := -9223372036854775808

/-- The largest integer of 64 bits. -/
def maxInteger : Int := 9223372036854775807

/-- The integer of 64 bits that a text stands for: digits, with or without a sign. -/
def ofRadix? (base : Nat) (text : List Char) : Option Int :=
  let n? := match text with
    | '-' :: digits => (ofDigits? base digits).map fun n => -(n : Int)
    | '+' :: digits => (ofDigits? base digits).map Int.ofNat
    | digits => (ofDigits? base digits).map Int.ofNat
  n?.filter fun n => minInteger ≤ n ∧ n ≤ maxInteger

/-- The integer that a literal without its sign stands for: hexadecimal behind `0x`, octal behind
`0`, decimal otherwise. -/
def magnitude? : List Char → Option Int
  | c :: d :: s =>
    if c = '0' then
      if d = 'x' ∨ d = 'X' then ofRadix? 16 s else ofRadix? 8 (d :: s)
    else ofRadix? 10 (c :: d :: s)
  | s => ofRadix? 10 s

/-- The integer that a literal stands for.  The least integer of 64 bits would have no negative here,
but it needs a second sign, and no literal has two. -/
def value? : List Char → Option Int
  | '-' :: s => (magnitude? s).map fun n => -n
  | s => magnitude? s

/-- The integer that a literal stands for, if it is one of 64 bits. -/
def integer (literal : String) : Except SchemaError Int :=
  match value? literal.toList with
  | some n => .ok n
  | none => .error (.invalidNumber literal)

/-- The largest number of a field, which has 29 bits. -/
def maxFieldNumber : Int := 536870911

/-- The least number of a value of an enum. -/
def minEnumNumber : Int := -2147483648

/-- The largest number of a value of an enum. -/
def maxEnumNumber : Int := 2147483647

/-- The number of a field, which starts at 1. -/
def fieldNumber (literal : String) : Except SchemaError Nat :=
  match integer literal with
  | .error e => .error e
  | .ok n =>
    if 1 ≤ n ∧ n ≤ maxFieldNumber then .ok n.toNat else .error (.invalidNumber literal)

/-- The number of a value of an enum, which has 32 bits. -/
def enumNumber (literal : String) : Except SchemaError Int :=
  match integer literal with
  | .error e => .error e
  | .ok n =>
    if minEnumNumber ≤ n ∧ n ≤ maxEnumNumber then .ok n else .error (.invalidNumber literal)

end Literal

end MettaSchema
