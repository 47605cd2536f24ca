import ResourceShards.Config.Scalar
import ResourceShards.Config.Yaml.Cell

/-!
# ResourceShards.Config.Yaml.Block

**Texts in blocks of lines.** A block is introduced by a character that tells whether its lines are
kept or joined, by a sign for the line ends behind it and by its indentation; the last two may be
left out. Its lines are those that are indented far enough, and the empty ones among them.

* `Block.read`: the lines of a block
* `Block.content`: the text that they are
-/

namespace ResourceShards.Config.Yaml

/-- What becomes of the line ends at the end of a block. -/
inductive Chomping where
  /-- None of them is kept. -/
  | strip
  /-- One of them is kept. -/
  | clip
  /-- All of them are kept. -/
  | keep
  deriving DecidableEq, Repr

/-- A line of a block. -/
structure BlockLine where
  /-- The line without its indentation. -/
  text : List Char
  /-- Its line end, if it has one. -/
  ending : List Char
  /-- The line ends of the empty lines behind it. -/
  empties : List Char

/-- Whether a line begins with a blank, so that it is not joined to others. -/
def BlockLine.isIndented (line : BlockLine) : Bool :=
  (line.text.head?.map isBlank).getD false

/-- A block. -/
structure Block where
  /-- What becomes of the line ends at the end. -/
  chomping : Chomping
  /-- The line ends of the empty lines in front. -/
  empties : List Char
  /-- The lines. -/
  lines : List BlockLine

namespace Block

/-! ### The text -/

/-- What stands between two lines. A single line feed between lines that are to be joined is a
space, and the first of several says nothing. -/
def between (style : Style) (a b : BlockLine) : List Char :=
  if style == .folded && a.ending == ['\n'] && !a.isIndented && !b.isIndented then
    if a.empties.isEmpty then [' '] else a.empties
  else a.ending ++ a.empties

/-- The text of lines up to the end of the last one. -/
def join (style : Style) : List BlockLine → List Char
  | [] => []
  | [line] => line.text
  | a :: b :: rest => a.text ++ between style a b ++ join style (b :: rest)

/-- What is kept of the line ends behind the last line, or of all if there is no line. -/
def tail (b : Block) : List Char :=
  let (ending, empties) := match b.lines.getLast? with
    | some line => (line.ending, line.empties)
    | none => ([], b.empties)
  match b.chomping with
  | .strip => []
  | .clip => ending
  | .keep => ending ++ empties

/-- The text of a block. -/
def content (style : Style) (b : Block) : String :=
  let before := if b.lines.isEmpty then [] else b.empties
  String.ofList (before ++ join style b.lines ++ b.tail)

/-! ### Reading -/

/-- A sign for the line ends at the end, and what follows it. -/
def chomping? (cs : Cells) : Option (Chomping × Cells) :=
  if peek cs == '+' then some (.keep, cs.drop 1)
  else if peek cs == '-' then some (.strip, cs.drop 1)
  else none

/-- A digit for the indentation, and what follows it. -/
def indentation? (cs : Cells) : Option (Nat × Cells) :=
  (digit? 10 (peek cs)).map (·, cs.drop 1)

/-- The signs of a block in either order, and what follows them. -/
def signs (cs : Cells) : Chomping × Option Nat × Cells :=
  match chomping? cs, indentation? cs with
  | some (chomping, rest), _ =>
    match indentation? rest with
    | some (n, rest) => (chomping, some n, rest)
    | none => (chomping, none, rest)
  | none, some (n, rest) =>
    match chomping? rest with
    | some (chomping, rest) => (chomping, some n, rest)
    | none => (.clip, some n, rest)
  | none, none => (.clip, none, cs)

/-- Drops empty lines and the indentation of the line behind them, which is at most `indent?`
spaces; no tab may stand there. The answer holds the line ends and the widest indentation. -/
def dropEmpties (indent? : Option Nat) (breaks : List Char) (widest : Nat) :
    Cells → Option (List Char × Nat × Cells)
  | [] => none
  | cell :: rest =>
    let column := cell.place.column
    let isBefore := indent?.all (column < ·)
    if isBefore && cell.char == ' ' then dropEmpties indent? breaks widest rest
    else if isBefore && cell.char == '\t' then none
    else if isBreak cell.char then
      dropEmpties indent? (cell.char :: breaks) (max widest column) rest
    else some (breaks.reverse, max widest column, cell :: rest)

/-- The lines that are indented to a column, and what follows them. -/
def readLines (indent : Nat) : (fuel : Nat) → Cells → Option (List BlockLine × Cells)
  | 0, _ => none
  | fuel + 1, cs =>
    if (here cs).column == indent && peek cs != endMark then do
      let (text, rest) := splitWhile (!endsLine ·) cs
      let ending := [peek rest].filter isBreak
      let (empties, _, rest) ← dropEmpties (some indent) [] 0 (rest.drop ending.length)
      let (lines, rest) ← readLines indent fuel rest
      return (⟨text, ending, empties⟩ :: lines, rest)
    else some ([], cs)

/-- Reads a block from behind the character that introduces it; lines left of the column `least` are
no part of it. An indentation that is given counts from the block around. Where none is given, the
widest one up to the first line that is not empty tells it. -/
def read (least : Nat) (cs : Cells) : Option (Block × Cells) := do
  let (chomping, given?, rest) := signs cs
  if given? == some 0 then none
  let indent? := given?.map (least - 1 + ·)
  let (empties, widest, rest) ← dropEmpties indent? [] 0 (← dropLine? rest)
  let indent := indent?.getD (max widest (max least 1))
  let (lines, rest) ← readLines indent (rest.length + 1) rest
  return (⟨chomping, empties, lines⟩, rest)

end Block

end ResourceShards.Config.Yaml
