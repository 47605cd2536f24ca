import ResourceShards.Config.Scalar

/-!
# ResourceShards.Config.Value

**What configuration documents hold.** Documents of both formats are read into the same values.
Words, which may stand for several things, occur in one of the formats only; in the other one every
value tells its type.
-/

namespace ResourceShards.Config

/-- A value of a configuration document. -/
inductive Value where
  /-- A word that may stand for several things. -/
  | scalar (s : Scalar)
  /-- A text. -/
  | text (content : String)
  /-- A whole number. -/
  | integer (n : Int)
  /-- A point in time. -/
  | moment
  /-- Anything else that no setting takes. -/
  | other
  /-- A list. -/
  | list (items : List Value)
  /-- A table of values by their keys, in order. -/
  | table (entries : List (String × Value))
  deriving Inhabited

namespace Value

/-- The text that a value is. -/
def text? : Value → Option String
  | scalar s => some s.content
  | text content => some content
  | _ => none

/-- The text that a value is, where there may be none. -/
def optionalText? : Value → Option (Option String)
  | scalar s => s.optional?
  | text content => some (some content)
  | _ => none

/-- The entries of a table. Where nothing is written the table is empty, and a point in time counts
as a table whose keys no setting has. -/
def entries? : Value → Option (List (String × Value))
  | table entries => some entries
  | scalar s => if s.isVoid then some [] else none
  | moment => some []
  | _ => none

/-- The number below `bound` that a value is. -/
def count? (bound : Nat) : Value → Option Nat
  | scalar s => s.number?.filter (· < bound)
  | integer n => if 0 ≤ n then some n.toNat else none
  | _ => none

end Value

end ResourceShards.Config
