import ResourceShards.Config.Digits

/-!
# ResourceShards.Config.Scalar

**Words that may stand for several things.** In one of the formats only the place where a word
stands tells whether it is a text, a number or nothing. How the word is written and what tag it has
decide what it may be taken for.

* `Scalar.isVoid`: the word that says nothing at all
* `Scalar.optional?`: a text where there may be none
* `Scalar.number?`: a number
-/

namespace ResourceShards.Config

/-- How a word is written. -/
inductive Style where
  /-- As it is. -/
  | plain
  /-- In quotes of either kind. -/
  | quoted
  /-- As a block whose lines are kept. -/
  | literal
  /-- As a block whose lines are joined. -/
  | folded
  deriving DecidableEq, Repr

/-- A word. -/
structure Scalar where
  /-- What it says. -/
  content : String
  /-- How it is written. -/
  style : Style := .plain
  /-- What it is said to be. -/
  tag? : Option String := none
  deriving DecidableEq, Repr

namespace Scalar

/-- The beginning of the tags that the format itself gives a meaning. -/
def coreTags : String := "tag:yaml.org,2002:"

/-- The tag of numbers. -/
def integerTag : String := coreTags ++ "int"

/-- The tag of what is not there. -/
def nullTag : String := coreTags ++ "null"

/-- The word that stands where nothing is written. -/
def void : Scalar := ⟨"", .plain, none⟩

/-- Whether nothing is written, whatever the tag. -/
def isVoid (s : Scalar) : Bool :=
  s.style == .plain && s.content == ""

/-- Whether the content is a name of nothing. -/
def namesNothing (s : Scalar) : Bool :=
  ["null", "Null", "NULL", "~"].contains s.content

/-- The text that a word is, where there may be none. Only a plain word can stand for nothing; one
that is tagged so must, and one with any other tag does not. -/
def optional? (s : Scalar) : Option (Option String) :=
  if s.style != .plain then some (some s.content)
  else
    match s.tag? with
    | none => some (if s.content == "" || s.namesNothing then none else some s.content)
    | some tag =>
      if tag != nullTag then some (some s.content)
      else if s.namesNothing then some none
      else none

/-! ### Numbers -/

/-- The base that a number's first characters give, and the characters after them. -/
def splitBase : List Char → Nat × List Char
  | '0' :: 'x' :: rest => (16, rest)
  | '0' :: 'o' :: rest => (8, rest)
  | '0' :: 'b' :: rest => (2, rest)
  | chars => (10, chars)

/-- The number that characters spell, a plus sign before them or not. Decimal digits do not begin
with an idle zero. -/
def numeral? (chars : List Char) : Option Nat :=
  let unsigned := match chars with
    | '+' :: rest => rest
    | chars => chars
  match splitBase unsigned with
  | (10, digits) => if hasIdleZero digits then none else Config.number? 10 digits
  | (base, digits) => Config.number? base digits

/-- Whether a word may be taken for a number: a plain word, or a literal one that is tagged so. -/
def mayBeNumber (s : Scalar) : Bool :=
  s.style == .plain || (s.style == .literal && s.tag? == some integerTag)

/-- The number that a word is. -/
def number? (s : Scalar) : Option Nat :=
  if s.mayBeNumber then numeral? s.content.toList else none

end Scalar

end ResourceShards.Config
