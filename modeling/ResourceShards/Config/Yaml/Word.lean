import ResourceShards.Config.Yaml.Cell

/-!
# ResourceShards.Config.Yaml.Word

**Words as they are.** A word without quotes begins with a character that means nothing else, may
hold blanks, and may go on over several lines as long as they are indented. It ends where a comment,
a key's colon, a marker or, in brackets, a bracket or comma stands.
-/

namespace ResourceShards.Config.Yaml

/-- Characters that a word can not begin with, unless something is joined to them. -/
def indicators : List Char :=
  ['-', '?', ':', ',', '[', ']', '{', '}', '#', '&', '*', '!', '|', '>', '\'', '"', '%', '@',
    '\x60']

/-- Characters that end a word inside brackets. -/
def bracketMarks : List Char :=
  [',', '[', ']', '{', '}']

/-- Whether a word begins here. -/
def startsWord (inBrackets : Bool) (cs : Cells) : Bool :=
  if peek cs == '-' then !isBlank (peekSecond cs)
  else if peek cs == '?' || peek cs == ':' then !inBrackets && !endsWord (peekSecond cs)
  else !endsWord (peek cs) && !indicators.contains (peek cs)

/-- Whether a word is over although a gap separates it from what stands here. -/
def endsAfterGap (inBrackets : Bool) (least : Nat) (cs : Cells) : Bool :=
  atMarker cs || peek cs == '#' || (!inBrackets && (here cs).column < least)

/-- Whether a word is over at what stands here, gap or not. -/
def endsHere (inBrackets : Bool) (cs : Cells) : Bool :=
  peek cs == endMark || (peek cs == ':' && endsWord (peekSecond cs)) ||
    (inBrackets && bracketMarks.contains (peek cs))

/-- Whether a colon stands here that belongs to nothing: in brackets, none may stand before one. -/
def hasLooseColon (inBrackets : Bool) (cs : Cells) : Bool :=
  inBrackets && peek cs == ':' && ('?' :: bracketMarks).contains (peekSecond cs)

/-- A word that was read. -/
structure Word where
  /-- What it says. -/
  content : String
  /-- Whether a line ended behind it. -/
  isBroken : Bool
  /-- What follows the word and the blanks and line ends behind it. -/
  rest : Cells

/-- Reads a word that goes on over lines indented to the column `least`, left of which no tab may
stand. What was read is in `seen` and the blanks and line ends behind it are in `gap`, both last
character first; the gap belongs to the word once more of it follows. -/
def Word.read (inBrackets : Bool) (least : Nat) (seen gap : List Char) : Cells → Option Word
  | [] => none
  | cell :: rest =>
    let cs := cell :: rest
    let isBroken := gap.any isBreak
    let word : Word := ⟨String.ofList seen.reverse, isBroken, cs⟩
    if isGap cell.char then
      if cell.char == '\t' && cell.place.column < least && isBroken then none
      else Word.read inBrackets least seen (cell.char :: gap) rest
    else if !gap.isEmpty && endsAfterGap inBrackets least cs then some word
    else if hasLooseColon inBrackets cs then none
    else if endsHere inBrackets cs then some word
    else
      Word.read inBrackets least (cell.char :: (foldGap gap.reverse).reverse ++ seen) [] rest

end ResourceShards.Config.Yaml
