/-!
# ResourceShards.Config.Yaml.Cell

**Characters with their places.** Columns decide where blocks end, and lines and distances decide
what can be a key, so every character of a document carries its place. A document ends in a NUL
character, which it can not hold anywhere else; so wherever something may end there is a character
to tell it by.

* `cellsOf?`: the cells of a document
* `dropGap`: what stands between tokens
* `foldGap`: what stands between the words of a text
-/

namespace ResourceShards.Config.Yaml

/-! ### Kinds of characters -/

/-- The character behind the last one of a document. -/
def endMark : Char := '\x00'

/-- Blanks inside a line. -/
def isBlank (c : Char) : Bool :=
  c == ' ' || c == '\t'

/-- Characters that end a line. -/
def isBreak (c : Char) : Bool :=
  c == '\n' || c == '\u2028' || c == '\u2029'

/-- Characters between words. -/
def isGap (c : Char) : Bool :=
  isBlank c || isBreak c

/-- Whether a line is over at a character. -/
def endsLine (c : Char) : Bool :=
  isBreak c || c == endMark

/-- Whether a word is over at a character, wherever it stands. -/
def endsWord (c : Char) : Bool :=
  isBlank c || endsLine c

/-- Characters that a document may hold. -/
def isAllowed (c : Char) : Bool :=
  c == '\t' || c == '\n' || c == '\r' || (0x20 ≤ c.val && c.val ≤ 0x7e) || c.val == 0x85 ||
    (0xa0 ≤ c.val && c.val ≤ 0xfffd) || 0x10000 ≤ c.val

/-! ### Places -/

/-- The place of a character. -/
structure Place where
  /-- How many lines are before it. -/
  line : Nat := 0
  /-- How many characters of its line are before it. -/
  column : Nat := 0
  /-- How many bytes these characters are. -/
  offset : Nat := 0
  deriving DecidableEq, Repr

/-- The place after a character. -/
def Place.after (p : Place) (c : Char) : Place :=
  if isBreak c then { line := p.line + 1 }
  else { p with column := p.column + 1, offset := p.offset + c.utf8Size }

/-- A character and its place. -/
structure Cell where
  /-- The character. -/
  char : Char
  /-- Its place. -/
  place : Place

/-- What is left of a document. -/
abbrev Cells := List Cell

/-- The cells of characters from a place on. All line ends of one or two control characters are one
line feed. -/
def cellsFrom (p : Place) : List Char → Cells
  | [] => [⟨endMark, p⟩]
  | '\r' :: '\n' :: rest => ⟨'\n', p⟩ :: cellsFrom (p.after '\n') rest
  | c :: rest =>
    let c := if c == '\r' || c == '\x85' then '\n' else c
    ⟨c, p⟩ :: cellsFrom (p.after c) rest

/-- The cells of a document. A byte order mark in front is no part of it, but takes its place. -/
def cellsOf? (text : String) : Option Cells :=
  let chars := text.toList
  if chars.all isAllowed then
    match chars with
    | '\ufeff' :: rest => some (cellsFrom (Place.after {} '\ufeff') rest)
    | chars => some (cellsFrom {} chars)
  else none

/-! ### Looking ahead -/

/-- The next character. -/
def peek (cs : Cells) : Char :=
  (cs.head?.map Cell.char).getD endMark

/-- The character after the next one. -/
def peekSecond (cs : Cells) : Char :=
  peek (cs.drop 1)

/-- The place of the next character. -/
def here (cs : Cells) : Place :=
  (cs.head?.map Cell.place).getD {}

/-- The characters of cells. -/
def charsOf (cs : Cells) : List Char :=
  cs.map Cell.char

/-- The longest piece in front whose characters are all of a kind, and what follows it. -/
def splitWhile (kind : Char → Bool) (cs : Cells) : List Char × Cells :=
  (charsOf (cs.takeWhile fun cell => kind cell.char), cs.dropWhile fun cell => kind cell.char)

/-- What follows the longest piece in front whose characters are all of a kind. -/
def dropWhile (kind : Char → Bool) (cs : Cells) : Cells :=
  cs.dropWhile fun cell => kind cell.char

/-- Whether a line begins here with three times the character `mark` and nothing joined to them. -/
def atMarks (mark : Char) : Cells → Bool
  | a :: b :: c :: rest =>
    a.place.column == 0 && a.char == mark && b.char == mark && c.char == mark &&
      endsWord (peek rest)
  | _ => false

/-- Whether a document begins or ends here. -/
def atMarker (cs : Cells) : Bool :=
  atMarks '-' cs || atMarks '.' cs

/-! ### Gaps -/

/-- What stands between two tokens dropped: blanks, comments and line ends. Tabs are blanks where
`tabs` says so; in brackets they always are, and elsewhere not at the beginning of a line. -/
def dropGap (inBrackets tabs inComment : Bool) : Cells → Cells
  | [] => []
  | cell :: rest =>
    if isBreak cell.char then dropGap inBrackets inBrackets false rest
    else if inComment && cell.char != endMark then dropGap inBrackets tabs true rest
    else if cell.char == ' ' || (tabs && cell.char == '\t') then
      dropGap inBrackets tabs false rest
    else if cell.char == '#' then dropGap inBrackets tabs true rest
    else cell :: rest

/-- What follows on the next line, if nothing but a comment is left of this one. -/
def dropLine? (cs : Cells) : Option Cells :=
  let rest := dropWhile isBlank cs
  let rest := if peek rest == '#' then dropWhile (!endsLine ·) rest else rest
  if isBreak (peek rest) then some (rest.drop 1)
  else if peek rest == endMark then some rest
  else none

/-- What the line ends between two words of a text stand for: a single line feed is a space, and the
first of several says nothing. -/
def foldBreaks : List Char → List Char
  | ['\n'] => [' ']
  | '\n' :: breaks => breaks
  | breaks => breaks

/-- What blanks and line ends between two words of a text stand for: themselves, or if a line ends
there, what the line ends stand for. -/
def foldGap (gap : List Char) : List Char :=
  if gap.any isBreak then foldBreaks (gap.filter isBreak) else gap

end ResourceShards.Config.Yaml
