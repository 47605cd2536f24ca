import ResourceShards.Config.Value

/-!
# ResourceShards.Config.Toml.Number

**Values without quotes and brackets.** Whole numbers in four bases, fractions, dates and times of
day. A word must be one of them, and no number may be too large for 64 bits.

* `bareWord`: the characters of such a value
* `bare?`: the value that they are
-/

namespace ResourceShards.Config.Toml

/-! ### Whole numbers -/

/-- The digits of a number; single underscores may stand between them. -/
def digits? (base : Nat) (cs : List Char) : Option Nat :=
  let closed := '_' :: cs ++ ['_']
  if (closed.zip (closed.drop 1)).any fun pair => pair.1 == '_' && pair.2 == '_' then none
  else number? base (cs.filter (· != '_'))

/-- Whole numbers have 64 bits, one of which is the sign. -/
def bound : Nat := UInt64.size / 2

/-- Whether a minus sign stands before a number, and what follows its sign, if it has one. -/
def splitSign : List Char → Bool × List Char
  | '-' :: rest => (true, rest)
  | '+' :: rest => (false, rest)
  | cs => (false, cs)

/-- A decimal number with a sign or without. -/
def decimal? (cs : List Char) : Option Int := do
  let (negative, cs) := splitSign cs
  if hasIdleZero cs then none
  let n ← digits? 10 cs
  if negative then
    if n ≤ bound then return -(n : Int) else none
  else if n < bound then return (n : Int)
  else none

/-- A whole number. -/
def integer? (cs : List Char) : Option Int :=
  let based (base : Nat) (rest : List Char) : Option Int :=
    ((digits? base rest).filter (· < bound)).map Int.ofNat
  match cs with
  | '0' :: 'x' :: rest => based 16 rest
  | '0' :: 'o' :: rest => based 8 rest
  | '0' :: 'b' :: rest => based 2 rest
  | cs => decimal? cs

/-! ### Fractions -/

/-- The least number that is too large for a fraction of 64 bits: it is half a unit above the
largest one. -/
def fractionBound : Nat := (1 <<< 1024) - (1 <<< 970)

/-- The count of digits of `fractionBound`. -/
def fractionBoundDigits : Nat := 309

/-- Whether a number, its digits times a power of ten, reaches `fractionBound`. The count of digits
alone decides it for all numbers but those that are about as long. -/
def isTooLarge (digits : List Char) (power : Int) : Bool :=
  let significant := digits.dropWhile (· == '0')
  let n := (number? 10 significant).getD 0
  let size := (significant.length : Int) + power
  if n == 0 || size < fractionBoundDigits then false
  else if fractionBoundDigits < size then true
  else if 0 ≤ power then fractionBound ≤ n * Nat.pow 10 power.toNat
  else fractionBound * Nat.pow 10 (-power).toNat ≤ n

/-- Whether a text is a fraction or a number with an exponent. One that is too large is neither,
unless it is negative; infinity has a name. -/
def isFraction (cs : List Char) : Bool :=
  let (negative, unsigned) := splitSign cs
  let isExponent (c : Char) : Bool := c == 'e' || c == 'E'
  let mantissa := unsigned.takeWhile fun c => !isExponent c
  let exponent := unsigned.drop mantissa.length
  let whole := mantissa.takeWhile (· != '.')
  let fraction := mantissa.drop whole.length
  let (lowered, exponentDigits) := splitSign (exponent.drop 1)
  let fractionDigits := (fraction.drop 1).filter (· != '_')
  let raised := (digits? 10 exponentDigits).getD 0
  let power : Int := (if lowered then -(raised : Int) else raised) - fractionDigits.length
  unsigned == ['i', 'n', 'f'] || unsigned == ['n', 'a', 'n'] ||
    (!hasIdleZero whole && (digits? 10 whole).isSome &&
      !(fraction.isEmpty && exponent.isEmpty) &&
      (fraction.isEmpty || (digits? 10 (fraction.drop 1)).isSome) &&
      (exponent.isEmpty || (digits? 10 exponentDigits).isSome) &&
      (negative || !isTooLarge (whole.filter (· != '_') ++ fractionDigits) power))

/-! ### Points in time -/

/-- The number that a text is, if it is that many digits. -/
def fixed? (count : Nat) (cs : List Char) : Option Nat :=
  if cs.length == count then number? 10 cs else none

/-- Whether a text is that many digits and stays within a bound. -/
def isCount (count most : Nat) (cs : List Char) : Bool :=
  (fixed? count cs).any (· ≤ most)

/-- Pieces of a text between the characters `sep`. -/
def splitOn (sep : Char) (cs : List Char) : List (List Char) :=
  cs.foldr (fun c pieces =>
    match c == sep, pieces with
    | true, pieces => [] :: pieces
    | false, piece :: rest => (c :: piece) :: rest
    | false, [] => [[c]]) [[]]

/-- Whether a year has a leap day. -/
def isLeap (year : Nat) : Bool :=
  year % 4 == 0 && (year % 100 != 0 || year % 400 == 0)

/-- The days of a month. -/
def daysIn (year month : Nat) : Nat :=
  if month == 2 then if isLeap year then 29 else 28
  else if [4, 6, 9, 11].contains month then 30
  else 31

/-- Whether a text is a date of the calendar. -/
def isDate (cs : List Char) : Bool :=
  match splitOn '-' cs with
  | [year, month, day] =>
    match fixed? 4 year, fixed? 2 month, fixed? 2 day with
    | some year, some month, some day =>
      1 ≤ month && month ≤ 12 && 1 ≤ day && day ≤ daysIn year month
    | _, _, _ => false
  | _ => false

/-- Whether a text is a time of day, fractions of seconds included. -/
def isTime (cs : List Char) : Bool :=
  match splitOn ':' cs with
  | [hour, minute, second] =>
    let whole := second.takeWhile (· != '.')
    let fraction := second.drop whole.length
    isCount 2 23 hour && isCount 2 59 minute && isCount 2 60 whole &&
      (fraction.isEmpty || (2 ≤ fraction.length && (fraction.drop 1).all Char.isDigit))
  | _ => false

/-- Whether a text is a time of day, with or without its distance from universal time. -/
def isZonedTime (cs : List Char) : Bool :=
  let time := cs.takeWhile fun c => c.isDigit || c == ':' || c == '.'
  isTime time &&
    match cs.drop time.length with
    | [] | ['Z'] | ['z'] => true
    | sign :: zone =>
      (sign == '+' || sign == '-') &&
        match splitOn ':' zone with
        | [hour, minute] => isCount 2 23 hour && isCount 2 59 minute
        | _ => false

/-- Whether a text is a point in time. -/
def isMoment (cs : List Char) : Bool :=
  isTime cs || isDate cs ||
    (isDate (cs.take 10) &&
      match cs.drop 10 with
      | sep :: time => (sep == 'T' || sep == 't' || sep == ' ') && isZonedTime time
      | [] => false)

/-! ### Bare values -/

/-- A value without quotes and brackets. -/
def bare? (cs : List Char) : Option Value :=
  if cs == "true".toList || cs == "false".toList then some .other
  else
    match integer? cs with
    | some n => some (.integer n)
    | none =>
      if isFraction cs then some .other
      else if isMoment cs then some .moment
      else none

/-- Characters of a value without quotes and brackets. -/
def isBareChar (c : Char) : Bool :=
  c.isAlphanum || c == '+' || c == '-' || c == '_' || c == '.' || c == ':'

/-- A value of `isBareChar` characters, as far as it goes. A date and a time may have a space
between them. -/
def bareWord (cs : List Char) : List Char :=
  let word := cs.takeWhile isBareChar
  match isDate word, cs.drop word.length with
  | true, ' ' :: c :: rest =>
    if c.isDigit then word ++ ' ' :: (c :: rest).takeWhile isBareChar else word
  | _, _ => word

end ResourceShards.Config.Toml
