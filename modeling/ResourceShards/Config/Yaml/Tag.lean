import ResourceShards.Config.Scalar
import ResourceShards.Config.Yaml.Cell

/-!
# ResourceShards.Config.Yaml.Tag

**Labels, tags and directives.** Labels name anchors. A tag says what a value is to be: it is
written in full between angle brackets, or as a handle, which directives in front of a document
explain, and what comes after it.
-/

namespace ResourceShards.Config.Yaml

/-! ### Labels -/

/-- Characters of labels. -/
def isLabelChar (c : Char) : Bool :=
  c.isAlphanum || c == '-' || c == '_'

/-- Characters that may be joined to the label of an anchor. -/
def labelEnds : List Char :=
  ['?', ':', ',', ']', '}', '%', '@', '\x60']

/-- The label of an anchor, and what follows it. -/
def label? (cs : Cells) : Option (String × Cells) :=
  let (label, rest) := splitWhile isLabelChar cs
  if label.isEmpty || !(endsWord (peek rest) || labelEnds.contains (peek rest)) then none
  else some (String.ofList label, rest)

/-! ### Tags -/

/-- Characters of a tag; in full ones, brackets and commas too. -/
def isTagChar (full : Bool) (c : Char) : Bool :=
  isLabelChar c || ";/?:@&=+$.!~*'()".toList.contains c || (full && [',', '[', ']'].contains c)

/-- How many more bytes belong to a character whose first byte is known. -/
def moreBytes? (byte : Nat) : Option Nat :=
  if byte < 0x80 then some 0
  else if byte < 0xc0 then none
  else if byte < 0xe0 then some 1
  else if byte < 0xf0 then some 2
  else if byte < 0xf8 then some 3
  else none

/-- How many more bytes are to come after a byte, if `missing` of them were to come with it. -/
def bytesAfter? (missing byte : Nat) : Option Nat :=
  if missing == 0 then moreBytes? byte
  else if 0x80 ≤ byte && byte < 0xc0 then some (missing - 1)
  else none

/-- Reads the characters of a tag, in which bytes may be written by number after a percent sign;
such bytes come in the groups that characters have. `seen` holds what was read, last character
first. -/
def readTagChars (full : Bool) (seen : List Char) (missing : Nat) :
    Cells → Option (List Char × Cells)
  | ⟨'%', _⟩ :: a :: b :: rest => do
    let byte ← number? 16 [a.char, b.char]
    readTagChars full (Char.ofNat byte :: seen) (← bytesAfter? missing byte) rest
  | cell :: rest =>
    if missing != 0 || cell.char == '%' then none
    else if isTagChar full cell.char then readTagChars full (cell.char :: seen) 0 rest
    else some (seen.reverse, cell :: rest)
  | [] => none

/-- Characters as a part of a tag, which is over at a NUL. -/
def tagText (chars : List Char) : String :=
  String.ofList (chars.takeWhile (· != endMark))

/-- A part of a tag that can not be left out, and what follows it. -/
def tagPart? (full : Bool) (cs : Cells) : Option (String × Cells) := do
  let (chars, rest) ← readTagChars full [] 0 cs
  if chars.isEmpty then none else return (tagText chars, rest)

/-- A tag: a handle, which is empty for a tag in full, and what comes after it. -/
structure Tag where
  /-- The handle. -/
  handle : String
  /-- What comes after it. -/
  suffix : String
  deriving DecidableEq, Repr

namespace Tag

/-- The tag of values that are not to be taken for anything special. -/
def unspecific : Tag := ⟨"", "!"⟩

/-- Reads a tag from behind its exclamation mark. -/
def read (cs : Cells) : Option (Tag × Cells) := do
  if peek cs == '<' then
    let (full, rest) ← tagPart? true (cs.drop 1)
    if peek rest == '>' then return (⟨"", full⟩, rest.drop 1) else none
  else
    let (label, rest) := splitWhile isLabelChar cs
    if peek rest == '!' then
      let (suffix, rest) ← tagPart? false (rest.drop 1)
      return (⟨"!" ++ String.ofList label ++ "!", suffix⟩, rest)
    else
      let (chars, rest) ← readTagChars false [] 0 cs
      let suffix := tagText chars
      return (if suffix == "" then unspecific else ⟨"!", suffix⟩, rest)

/-- The handles that need no directive, and what they stand for. -/
def coreHandles : List (String × String) :=
  [("!", "!"), ("!!", Scalar.coreTags)]

/-- The tag in full, if its handle is known. -/
def resolve? (handles : List (String × String)) (tag : Tag) : Option String :=
  if tag.handle == "" then some tag.suffix
  else ((handles ++ coreHandles).lookup tag.handle).map (· ++ tag.suffix)

end Tag

/-! ### Directives -/

/-- What is said in front of a document. -/
inductive Directive where
  /-- Its version. -/
  | version
  /-- What a handle stands for. -/
  | handle (handle meaning : String)
  deriving DecidableEq, Repr

namespace Directive

/-- A number of nine digits at most, and what follows it. -/
def readNumber (cs : Cells) : Option (Nat × Cells) :=
  let (digits, rest) := splitWhile Char.isDigit cs
  if digits.length ≤ 9 then (number? 10 digits).map (·, rest) else none

/-- A version, which must be 1.1 or 1.2. -/
def readVersion (cs : Cells) : Option (Directive × Cells) := do
  let (major, rest) ← readNumber cs
  let (minor, rest) ← if peek rest == '.' then readNumber (rest.drop 1) else none
  if major == 1 && (minor == 1 || minor == 2) then return (.version, rest) else none

/-- A handle, and what it stands for. -/
def readHandle (cs : Cells) : Option (Directive × Cells) := do
  if peek cs != '!' then none
  let (label, rest) := splitWhile isLabelChar (cs.drop 1)
  let isClosed := peek rest == '!'
  if !isClosed && !label.isEmpty then none
  let rest := if isClosed then rest.drop 1 else rest
  if !isBlank (peek rest) then none
  let (meaning, rest) ← tagPart? true (dropWhile isBlank rest)
  if !endsWord (peek rest) then none
  return (.handle ("!" ++ String.ofList label ++ if isClosed then "!" else "") meaning, rest)

/-- Reads a directive from behind its percent sign, with its line end. -/
def read (cs : Cells) : Option (Directive × Cells) := do
  let (name, rest) := splitWhile isLabelChar cs
  if !endsWord (peek rest) then none
  let rest := dropWhile isBlank rest
  let (directive, rest) ←
    if name == "YAML".toList then readVersion rest
    else if name == "TAG".toList then readHandle rest
    else none
  return (directive, ← dropLine? rest)

end Directive

end ResourceShards.Config.Yaml
