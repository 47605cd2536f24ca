/-!
# ResourceShards.Text.Decimal

**Reading unsigned decimal numbers.** A number is one or more digits with an optional plus sign in
front, and it must stay below a bound. Digits are taken from left to right, so the first thing that
goes wrong is the one reported.
-/

namespace ResourceShards.Decimal

/-- Why a text is no number. -/
inductive Fault where
  /-- There is nothing to read. -/
  | empty
  /-- A character other than a digit, or a sign alone. -/
  | invalidDigit
  /-- The number reaches the bound. -/
  | overflow
  deriving DecidableEq, Repr

/-- The fault in words. -/
def Fault.message : Fault → String
  | .empty => "cannot parse integer from empty string"
  | .invalidDigit => "invalid digit found in string"
  | .overflow => "number too large to fit in target type"

/-- The value of a digit. -/
def digit? (c : Char) : Option Nat :=
  if c.isDigit then some (c.toNat - '0'.toNat) else none

/-- Reads digits after a number `value`; every number on the way stays below `bound`. -/
def digits (bound : Nat) (value : Nat) : List Char → Except Fault Nat
  | [] => .ok value
  | c :: rest =>
    match digit? c with
    | none => .error .invalidDigit
    | some d =>
      if 10 * value + d < bound then digits bound (10 * value + d) rest else .error .overflow

/-- Reads a whole text as a number below `bound`. -/
def read (bound : Nat) (text : String) : Except Fault Nat :=
  match text.toList with
  | [] => .error .empty
  | ['+'] => .error .invalidDigit
  | '+' :: rest => digits bound 0 rest
  | chars => digits bound 0 chars

end ResourceShards.Decimal
