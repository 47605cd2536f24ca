/-!
# ResourceShards.Config.Digits

**Numbers in digits.** Both formats of configuration documents write numbers in several bases; how a
base is chosen is theirs to say.
-/

namespace ResourceShards.Config

/-- The value of a digit of a base up to sixteen. -/
def digit? (base : Nat) (c : Char) : Option Nat :=
  let value? :=
    if '0' ≤ c ∧ c ≤ '9' then some (c.toNat - '0'.toNat)
    else if 'a' ≤ c ∧ c ≤ 'f' then some (c.toNat - 'a'.toNat + 10)
    else if 'A' ≤ c ∧ c ≤ 'F' then some (c.toNat - 'A'.toNat + 10)
    else none
  value?.filter (· < base)

/-- The number that digits spell; there must be one at least. -/
def number? (base : Nat) : List Char → Option Nat
  | [] => none
  | chars => chars.foldlM (fun n c => (digit? base c).map (base * n + ·)) 0

/-- Whether digits begin with a zero that says nothing. -/
def hasIdleZero : List Char → Bool
  | '0' :: _ :: _ => true
  | _ => false

/-- The character of a number, unless there is none. -/
def character? (n : Nat) : Option Char :=
  if h : n.isValidChar then some (Char.ofNatAux n h) else none

end ResourceShards.Config
