/-!
# Decimal numerals of 64 bits

A numeral is an optional plus sign and at least one decimal digit, and its value is below `2 ^ 64`.
Reading goes from the left and reports the first fault it meets, so a text with two faults is
reported by the one further left: too many digits before a letter is too large a number, and a
letter before them is an invalid digit.
-/

namespace Workflow.Text

inductive NumeralFault where
  | empty
  | invalidDigit
  | tooLarge
  deriving Repr, DecidableEq

def NumeralFault.message : NumeralFault → String
  | .empty => "cannot parse integer from empty string"
  | .invalidDigit => "invalid digit found in string"
  | .tooLarge => "number too large to fit in target type"

namespace Numeral

/-- The least number that does not fit. -/
def limit : Nat := UInt64.size

/-- Reads digits from the left, `value` being what the digits before them denote. -/
def digits (value : Nat) : List Char → Except NumeralFault Nat
  | [] => .ok value
  | c :: rest =>
    if c.isDigit then
      let next := 10 * value + (c.toNat - '0'.toNat)
      if next < limit then digits next rest else .error .tooLarge
    else .error .invalidDigit

/-- Reads a numeral. -/
def read : List Char → Except NumeralFault Nat
  | [] => .error .empty
  -- a sign alone is no empty text, but a text without a digit
  | ['+'] => .error .invalidDigit
  | '+' :: rest => digits 0 rest
  | cs => digits 0 cs

end Numeral

end Workflow.Text
