import ResourceShards.Config.Yaml.Block
import ResourceShards.Config.Yaml.Quoted
import ResourceShards.Config.Yaml.Tag
import ResourceShards.Config.Yaml.Word

/-!
# ResourceShards.Config.Yaml.Token

**Tokens of a document.** Blocks by indentation become tokens like brackets: a list or table begins
at the first dash or key of a column that is deeper than the block around, and ends before the first
token left of it. That a word was a key shows at its colon only. So whatever may be a key is kept in
mind until its line is over, and when a colon comes the tokens in front of the key are put in
afterwards.

* `Scan`: how far reading has come
* `Scan.token`: reading one more token
* `Token.ofText?`: the tokens of a document
-/

namespace ResourceShards.Config.Yaml

/-- A token. -/
inductive Token where
  /-- What is said in front of a document. -/
  | directive (d : Directive)
  /-- The marker in front of a document. -/
  | documentStart
  /-- The marker behind a document. -/
  | documentEnd
  /-- A list by indentation begins. -/
  | blockList
  /-- A table by indentation begins. -/
  | blockTable
  /-- A list or table by indentation ends. -/
  | blockEnd
  /-- The bracket in front of a list. -/
  | flowList
  /-- The bracket behind a list. -/
  | flowListEnd
  /-- The brace in front of a table. -/
  | flowTable
  /-- The brace behind a table. -/
  | flowTableEnd
  /-- The dash in front of an item. -/
  | item
  /-- The comma between items or entries. -/
  | comma
  /-- A key follows. -/
  | key
  /-- The value of a key follows. -/
  | value
  /-- The node with an anchor of this number stands here once more. -/
  | reference (number : Nat)
  /-- The next node has an anchor of this number. -/
  | anchor (number : Nat)
  /-- The next node has a tag. -/
  | tag (t : Tag)
  /-- A word or a text. -/
  | scalar (style : Style) (content : String)

/-- Something that is a key if a colon follows. -/
structure Candidate where
  /-- Where it begins. -/
  place : Place
  /-- How many tokens are in front of it. -/
  index : Nat
  /-- Whether nothing but a key can stand there, since the column is that of a table's keys. -/
  isRequired : Bool

/-- How many bytes after its beginning a key's colon may come. -/
def maxKeyLength : Nat := 1024

/-- Whether the colon that comes at a place is too late. -/
def Candidate.isStale (k : Candidate) (now : Place) : Bool :=
  k.place.line < now.line || k.place.offset + maxKeyLength < now.offset

/-- How far reading has come. -/
structure Scan where
  /-- What is left of the document. -/
  rest : Cells
  /-- The tokens so far. -/
  tokens : Array Token := #[]
  /-- The columns of the blocks around, innermost first. -/
  blocks : List Nat := []
  /-- What may be a key inside the innermost bracket. -/
  candidate : Option Candidate := none
  /-- What may be a key around each bracket, innermost first. -/
  around : List (Option Candidate) := []
  /-- Whether a key, or a dash, can stand here. -/
  allowsKey : Bool := true
  /-- The numbers of the anchors so far. -/
  anchors : List (String × Nat) := []

namespace Scan

/-- Whether brackets are around. -/
def inBrackets (s : Scan) : Bool :=
  !s.around.isEmpty

/-- The first column that is inside the innermost block. -/
def least (s : Scan) : Nat :=
  (s.blocks.head?.map (· + 1)).getD 0

/-- The column of what comes next. -/
def column (s : Scan) : Nat :=
  (here s.rest).column

/-- One more token. -/
def emit (t : Token) (s : Scan) : Scan :=
  { s with tokens := s.tokens.push t }

/-- Some characters later. -/
def advance (count : Nat) (s : Scan) : Scan :=
  { s with rest := s.rest.drop count }

/-- A token of some characters. -/
def take (count : Nat) (t : Token) (s : Scan) : Scan :=
  (s.emit t).advance count

/-- Keys can stand here or can not. -/
def allowing (allowsKey : Bool) (s : Scan) : Scan :=
  { s with allowsKey }

/-! ### Blocks -/

/-- Begins a block in a column that is deeper than the block around; `index` tokens are in front of
it. In brackets there are no blocks. -/
def beginBlock (column index : Nat) (t : Token) (s : Scan) : Scan :=
  if s.inBrackets || column < s.least then s
  else { s with blocks := column :: s.blocks, tokens := s.tokens.insertIdxIfInBounds index t }

/-- Ends the blocks in the column `least` and to the right of it. -/
def endBlocks (least : Nat) (s : Scan) : Scan :=
  if s.inBrackets then s
  else
    let ended := s.blocks.takeWhile (least ≤ ·)
    { s with
      blocks := s.blocks.drop ended.length
      tokens := s.tokens ++ ended.map fun _ => Token.blockEnd }

/-! ### Candidates -/

/-- Gives up what may be a key, unless nothing else can stand there. -/
def dropCandidate (s : Scan) : Option Scan :=
  if s.candidate.any Candidate.isRequired then none else some { s with candidate := none }

/-- Gives up what can not be a key any more. What stands in front of a bracket comes to this after
the bracket is closed. -/
def dropStale (s : Scan) : Option Scan :=
  if s.candidate.any (·.isStale (here s.rest)) then s.dropCandidate else some s

/-- What comes next may be a key, if keys can stand here. -/
def addCandidate (s : Scan) : Option Scan := do
  if s.allowsKey then
    let s ← s.dropCandidate
    let isRequired := !s.inBrackets && s.least == s.column + 1
    return { s with candidate := some ⟨here s.rest, s.tokens.size, isRequired⟩ }
  else return s

/-! ### Kinds of tokens -/

/-- A marker or a directive is about to come; all blocks end before it. -/
def endDocument (s : Scan) : Option Scan := do
  return (← (s.endBlocks 0).dropCandidate).allowing false

/-- A directive. -/
def directive (s : Scan) : Option Scan := do
  let s ← s.endDocument
  let (d, rest) ← Directive.read (s.rest.drop 1)
  return { s.emit (.directive d) with rest }

/-- A bracket that is opened. -/
def bracket (t : Token) (s : Scan) : Option Scan := do
  let s ← s.addCandidate
  let s := { s with candidate := none, around := s.candidate :: s.around }
  return (s.take 1 t).allowing true

/-- A bracket that is closed, even if none was opened. -/
def bracketEnd (t : Token) (s : Scan) : Option Scan := do
  let s ← s.dropCandidate
  let s := match s.around with
    | candidate :: around => { s with candidate, around }
    | [] => s
  return (s.take 1 t).allowing false

/-- A comma. -/
def comma (s : Scan) : Option Scan := do
  return ((← s.dropCandidate).take 1 .comma).allowing true

/-- A dash. -/
def item (s : Scan) : Option Scan := do
  if !s.inBrackets && !s.allowsKey then none
  let s := s.beginBlock s.column s.tokens.size .blockList
  return ((← s.dropCandidate).take 1 .item).allowing true

/-- A question mark in front of a key. -/
def key (s : Scan) : Option Scan := do
  if !s.inBrackets && !s.allowsKey then none
  let s := s.beginBlock s.column s.tokens.size .blockTable
  return ((← s.dropCandidate).take 1 .key).allowing !s.inBrackets

/-- A colon. What may be a key is one, and if nothing may be one the key is left out. -/
def value (s : Scan) : Option Scan :=
  match s.candidate with
  | some k =>
    let s := { s with tokens := s.tokens.insertIdxIfInBounds k.index .key, candidate := none }
    let s := s.beginBlock k.place.column k.index .blockTable
    some ((s.take 1 .value).allowing false)
  | none =>
    if !s.inBrackets && !s.allowsKey then none
    else
      let s := s.beginBlock s.column s.tokens.size .blockTable
      some ((s.take 1 .value).allowing !s.inBrackets)

/-- A reference, which must have its anchor before it. -/
def reference (s : Scan) : Option Scan := do
  let s ← s.addCandidate
  let (label, rest) ← label? (s.rest.drop 1)
  let number ← s.anchors.lookup label
  return { (s.emit (.reference number)).allowing false with rest }

/-- An anchor. It gets the count of the labels so far as its number; where a label comes again two
anchors may get the same one. -/
def anchor (s : Scan) : Option Scan := do
  let s ← s.addCandidate
  let (label, rest) ← label? (s.rest.drop 1)
  let number := s.anchors.length
  let anchors := (label, number) :: s.anchors.filter (·.1 != label)
  return { (s.emit (.anchor number)).allowing false with rest, anchors }

/-- A tag. -/
def tag (s : Scan) : Option Scan := do
  let s ← s.addCandidate
  let (t, rest) ← Tag.read (s.rest.drop 1)
  if endsWord (peek rest) || (s.inBrackets && peek rest == ',') then
    return { (s.emit (.tag t)).allowing false with rest }
  else none

/-- A block of lines. -/
def block (style : Style) (s : Scan) : Option Scan := do
  let s ← s.dropCandidate
  let (block, rest) ← Block.read s.least (s.rest.drop 1)
  return { (s.emit (.scalar style (block.content style))).allowing true with rest }

/-- A text in quotes. -/
def quoted (quote : Char) (s : Scan) : Option Scan := do
  let s ← s.addCandidate
  let (content, rest) ← quoted? quote [] s.rest.length (s.rest.drop 1)
  return { (s.emit (.scalar .quoted content)).allowing false with rest }

/-- A word. -/
def word (s : Scan) : Option Scan := do
  let s ← s.addCandidate
  let w ← Word.read s.inBrackets s.least [] [] s.rest
  return { (s.emit (.scalar .plain w.content)).allowing w.isBroken with rest := w.rest }

/-! ### All tokens -/

/-- Drops what stands before the next token. In blocks a new line may begin with a key. -/
def skipGap (s : Scan) : Scan :=
  let rest := dropGap s.inBrackets (s.inBrackets || !s.allowsKey) false s.rest
  let isNewLine := (here s.rest).line != (here rest).line
  { s with rest, allowsKey := s.allowsKey || (!s.inBrackets && isNewLine) }

/-- Reads the token that begins here. -/
def token (s : Scan) : Option Scan :=
  let isJoined := !endsWord (peekSecond s.rest)
  if s.column == 0 && peek s.rest == '%' then s.directive
  else if atMarks '-' s.rest then s.endDocument.map (take 3 .documentStart)
  else if atMarks '.' s.rest then s.endDocument.map (take 3 .documentEnd)
  else
    match peek s.rest with
    | '[' => s.bracket .flowList
    | '{' => s.bracket .flowTable
    | ']' => s.bracketEnd .flowListEnd
    | '}' => s.bracketEnd .flowTableEnd
    | ',' => s.comma
    | '*' => s.reference
    | '&' => s.anchor
    | '!' => s.tag
    | '"' => s.quoted '"'
    | '\'' => s.quoted '\''
    | c =>
      if c == '-' && !isJoined then s.item
      else if c == '?' && (s.inBrackets || !isJoined) then s.key
      else if c == ':' && (s.inBrackets || !isJoined) then s.value
      else if c == '|' && !s.inBrackets then s.block .literal
      else if c == '>' && !s.inBrackets then s.block .folded
      else if startsWord s.inBrackets s.rest then s.word
      else none

/-- Reads all tokens that are left. -/
def finish : (fuel : Nat) → Scan → Option (List Token)
  | 0, _ => none
  | fuel + 1, s => do
    let s ← s.skipGap.dropStale
    let s := s.endBlocks (s.column + 1)
    if peek s.rest == endMark then return (← s.endDocument).tokens.toList
    else finish fuel (← s.token)

end Scan

/-- The tokens of a document. -/
def Token.ofText? (text : String) : Option (List Token) := do
  let cells ← cellsOf? text
  Scan.finish cells.length { rest := cells }

end ResourceShards.Config.Yaml
