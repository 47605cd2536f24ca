import ResourceShards.Config.Digits

/-!
# ResourceShards.Config.Toml.Text

**Texts, keys and what is between them.** A text stands on one line or, in threefold quotes, on
several; between single quotes every character stands for itself. Keys are words or texts with dots
between them. All readers answer with what they read and with the rest.

* `text?`: a text in quotes of either kind
* `key`: a key that is not too deep
-/

namespace ResourceShards.Config.Toml

/-! ### Lines -/

/-- Blanks inside a line. -/
def isBlank (c : Char) : Bool :=
  c == ' ' || c == '\t'

/-- Characters that stand for themselves in texts and comments. -/
def isPlain (c : Char) : Bool :=
  c == '\t' || (0x20 ≤ c.val && c.val != 0x7f)

/-- Blanks dropped. -/
def dropBlanks (cs : List Char) : List Char :=
  cs.dropWhile isBlank

/-- A comment dropped, if one stands here. -/
def dropComment (cs : List Char) : List Char :=
  match cs with
  | '#' :: rest => rest.dropWhile isPlain
  | cs => cs

/-- What follows the end of a line, if the line ends here. -/
def lineEnd? : List Char → Option (List Char)
  | [] => some []
  | '\n' :: rest => some rest
  | '\r' :: '\n' :: rest => some rest
  | _ => none

/-- Blanks, comments and ends of lines dropped. -/
def dropGap : (fuel : Nat) → List Char → List Char
  | 0, cs => cs
  | fuel + 1, cs =>
    let rest := dropComment (dropBlanks cs)
    match rest with
    | [] => []
    | rest =>
      match lineEnd? rest with
      | some after => dropGap fuel after
      | none => rest

/-! ### Texts -/

/-- The character of a number in base 16 with a fixed count of digits, and the rest. -/
def numbered (count : Nat) (cs : List Char) : Option (Char × List Char) := do
  let digits := cs.take count
  let n ← if digits.length == count then number? 16 digits else none
  return (← character? n, cs.drop count)

/-- What stands after a backslash. -/
def escaped : List Char → Option (Char × List Char)
  | 'b' :: rest => some ('\x08', rest)
  | 't' :: rest => some ('\t', rest)
  | 'n' :: rest => some ('\n', rest)
  | 'f' :: rest => some ('\x0c', rest)
  | 'r' :: rest => some ('\r', rest)
  | '"' :: rest => some ('"', rest)
  | '\\' :: rest => some ('\\', rest)
  | 'u' :: rest => numbered 4 rest
  | 'U' :: rest => numbered 8 rest
  | _ => none

/-- A text on one line up to its closing quote; `seen` holds what was read, last character first. -/
def lineText (quote : Char) (seen : List Char) : (fuel : Nat) → List Char →
    Option (String × List Char)
  | 0, _ => none
  | fuel + 1, cs =>
    match cs with
    | [] => none
    | c :: rest =>
      if c == quote then some (String.ofList seen.reverse, rest)
      else if quote == '"' && c == '\\' then
        match escaped rest with
        | some (c, rest) => lineText quote (c :: seen) fuel rest
        | none => none
      else if isPlain c then lineText quote (c :: seen) fuel rest
      else none

/-- Blanks and ends of lines dropped. -/
def dropSpace (cs : List Char) : List Char :=
  cs.dropWhile fun c => isBlank c || c == '\n' || c == '\r'

/-- The number of times a character stands at the front. -/
def runLength (c : Char) (cs : List Char) : Nat :=
  (cs.takeWhile (· == c)).length

/-- A text over several lines up to its three closing quotes, before which two more may stand. -/
def longText (quote : Char) (seen : List Char) : (fuel : Nat) → List Char →
    Option (String × List Char)
  | 0, _ => none
  | fuel + 1, cs =>
    match cs with
    | [] => none
    | c :: rest =>
      if c == quote then
        let run := runLength quote cs
        if run < 3 then longText quote (List.replicate run c ++ seen) fuel (cs.drop run)
        else if run ≤ 5 then
          some (String.ofList (List.replicate (run - 3) c ++ seen).reverse, cs.drop run)
        else none
      else if quote == '"' && c == '\\' then
        match (lineEnd? (dropBlanks rest)) with
        | some after =>
          if (dropBlanks rest).isEmpty then none else longText quote seen fuel (dropSpace after)
        | none =>
          match escaped rest with
          | some (c, rest) => longText quote (c :: seen) fuel rest
          | none => none
      else if isPlain c then longText quote (c :: seen) fuel rest
      else
        match lineEnd? cs with
        | some rest => longText quote ('\n' :: seen) fuel rest
        | none => none

/-- A text in quotes of either kind. -/
def text? (fuel : Nat) (cs : List Char) : Option (String × List Char) :=
  match cs with
  | '"' :: '"' :: '"' :: rest => longText '"' [] fuel ((lineEnd? rest).getD rest)
  | '\'' :: '\'' :: '\'' :: rest => longText '\'' [] fuel ((lineEnd? rest).getD rest)
  | '"' :: rest => lineText '"' [] fuel rest
  | '\'' :: rest => lineText '\'' [] fuel rest
  | _ => none

/-! ### Keys -/

/-- Characters of a key without quotes. -/
def isKeyChar (c : Char) : Bool :=
  c.isAlphanum || c == '-' || c == '_'

/-- One part of a key. -/
def keyPart (fuel : Nat) (cs : List Char) : Option (String × List Char) :=
  match cs with
  | '"' :: rest => lineText '"' [] fuel rest
  | '\'' :: rest => lineText '\'' [] fuel rest
  | cs =>
    let part := cs.takeWhile isKeyChar
    if part.isEmpty then none else some (String.ofList part, cs.drop part.length)

/-- The parts of a key with dots between them, and the rest, blanks dropped. -/
def keyParts : (fuel : Nat) → List Char → Option (List String × List Char)
  | 0, _ => none
  | fuel + 1, cs => do
    let (part, rest) ← keyPart fuel (dropBlanks cs)
    match dropBlanks rest with
    | '.' :: rest =>
      let (parts, rest) ← keyParts fuel rest
      return (part :: parts, rest)
    | rest => return ([part], rest)

/-- How many brackets may stand around a value, and how many parts a key may have. -/
def maxDepth : Nat := 79

/-- A key that is not too deep, and the rest, blanks dropped. -/
def key (fuel : Nat) (cs : List Char) : Option (List String × List Char) :=
  (keyParts fuel cs).filter (·.1.length ≤ maxDepth)

end ResourceShards.Config.Toml
