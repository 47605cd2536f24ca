import ResourceShards.Config.Digits
import ResourceShards.Config.Yaml.Cell

/-!
# ResourceShards.Config.Yaml.Quoted

**Texts in quotes.** Between single quotes only a quote is written differently, as two of them.
Between double quotes a backslash stands before characters that are named or numbered, and before a
line end that is to say nothing. Other line ends are folded.
-/

namespace ResourceShards.Config.Yaml

/-- The characters that have a letter after a backslash. -/
def escapes : List (Char × Char) :=
  [('0', '\x00'), ('a', '\x07'), ('b', '\x08'), ('t', '\t'), ('\t', '\t'), ('n', '\n'),
    ('v', '\x0b'), ('f', '\x0c'), ('r', '\r'), ('e', '\x1b'), (' ', ' '), ('"', '"'), ('/', '/'),
    ('\\', '\\'), ('N', '\x85'), ('_', '\u00a0'), ('L', '\u2028'), ('P', '\u2029')]

/-- How many digits follow the letters that stand before a number. -/
def numberedEscapes : List (Char × Nat) :=
  [('x', 2), ('u', 4), ('U', 8)]

/-- The character that stands after a backslash, and what follows it. -/
def escaped? (cs : Cells) : Option (Char × Cells) :=
  let rest := cs.drop 1
  match numberedEscapes.lookup (peek cs) with
  | some count => do
    let digits := charsOf (rest.take count)
    let n ← if digits.length == count then number? 16 digits else none
    return (← character? n, rest.drop count)
  | none => (escapes.lookup (peek cs)).map (·, rest)

/-- Reads a text up to its closing quote; `seen` holds what was read, last character first. -/
def quoted? (quote : Char) (seen : List Char) : (fuel : Nat) → Cells → Option (String × Cells)
  | 0, _ => none
  | fuel + 1, cs =>
    let rest := cs.drop 1
    if peek cs == endMark || atMarker cs then none
    else if isGap (peek cs) then
      let (gap, rest) := splitWhile isGap cs
      quoted? quote ((foldGap gap).reverse ++ seen) fuel rest
    else if peek cs == quote then
      if quote == '\'' && peek rest == quote then quoted? quote (quote :: seen) fuel (rest.drop 1)
      else some (String.ofList seen.reverse, rest)
    else if quote == '"' && peek cs == '\\' then
      if isBreak (peek rest) then
        let (gap, rest) := splitWhile isGap (rest.drop 1)
        quoted? quote ((gap.filter isBreak).reverse ++ seen) fuel rest
      else
        match escaped? rest with
        | some (c, rest) => quoted? quote (c :: seen) fuel rest
        | none => none
    else quoted? quote (peek cs :: seen) fuel rest

end ResourceShards.Config.Yaml
