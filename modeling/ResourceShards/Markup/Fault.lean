import ResourceShards.Files.OsError
import ResourceShards.Text.Quoted
import ResourceShards.Text.Utf8

/-!
# ResourceShards.Markup.Fault

**What can be wrong with a document.** Each cause is a constructor; its wording is in one function
beside the type.
-/

namespace ResourceShards.Markup

/-! ### References -/

/-- Why a reference such as `&lt;` stands for no character. `start` is the position of its `&`. -/
inductive ReferenceFault where
  /-- No `;` follows before the next `&` or the end of the text at `stop`. -/
  | unterminated (start stop : Nat)
  /-- `name` between `start + 1` and `stop` is no known name. -/
  | unknownName (start stop : Nat) (name : String)
  /-- The number is zero or missing. -/
  | null (start stop : Nat)
  /-- More than six digits in base 16. -/
  | longHexadecimal
  /-- More than seven digits in base 10. -/
  | longDecimal
  /-- A byte that is no digit in base 16. -/
  | badHexadecimal (b : UInt8)
  /-- A byte that is no digit in base 10. -/
  | badDecimal (b : UInt8)
  /-- The number is no character. -/
  | noCharacter (code : Nat)
  deriving DecidableEq, Repr

/-- The fault in words. -/
def ReferenceFault.message : ReferenceFault → String
  | .unterminated start stop => place start stop ++ "Cannot find ';' after '&'"
  | .unknownName start stop name =>
    place (start + 1) stop ++ "Unrecognized escape symbol: " ++ Text.quote name
  | .null start stop => place start stop ++ "Null character entity not allowed"
  | .longHexadecimal => "Cannot convert hexadecimal to utf8"
  | .longDecimal => "Cannot convert decimal to utf8"
  | .badHexadecimal b => "'" ++ latin b ++ "' is not a valid hexadecimal character"
  | .badDecimal b => "'" ++ latin b ++ "' is not a valid decimal character"
  | .noCharacter code => "'" ++ toString code ++ "' is not a valid codepoint"
where
  place (start stop : Nat) : String :=
    "Error while escaping character at range " ++ toString start ++ ".." ++ toString stop ++ ": "
  latin (b : UInt8) : String :=
    String.singleton (Char.ofNat b.toNat)

/-! ### Attributes -/

/-- Why the attributes of a tag can not be read on; positions count from the tag's name. -/
inductive AttributeFault where
  /-- No `=` follows the key. -/
  | noEquals (position : Nat)
  /-- The tag ends where a value should begin. -/
  | noValue (position : Nat)
  /-- A value begins without a quote. -/
  | noQuote (position : Nat)
  /-- A value is not closed by the quote that opens it. -/
  | unclosed (position : Nat) (quote : UInt8)
  deriving DecidableEq, Repr

/-- The fault in words. -/
def AttributeFault.message : AttributeFault → String
  | .noEquals p =>
    place p ++ "attribute key must be directly followed by `=` or space"
  | .noValue p => place p ++ "`=` must be followed by an attribute value"
  | .noQuote p => place p ++ "attribute value must be enclosed in `\"` or `'`"
  | .unclosed p quote =>
    place p ++ "missing closing quote `" ++ String.singleton (Char.ofNat quote.toNat) ++
      "` in attribute value"
where
  place (p : Nat) : String :=
    "position " ++ toString p ++ ": "

/-! ### Documents -/

/-- Why a document can not be read on. -/
inductive Fault where
  /-- `<!` is followed by a byte that begins no such markup. -/
  | unknownDeclaration (b : UInt8)
  /-- The document ends after `<!`. -/
  | unfinishedDeclaration
  /-- A comment is not begun or not ended as it should be. -/
  | unfinishedComment
  /-- A CDATA section is not begun or not ended as it should be. -/
  | unfinishedCData
  /-- A document type is not begun or not ended as it should be. -/
  | unfinishedDoctype
  /-- A document type without content. -/
  | emptyDoctype
  /-- A processing instruction is not ended as it should be. -/
  | unfinishedInstruction
  /-- An end tag names another element than the one it ends. -/
  | wrongEnd (expected found : String)
  /-- The attributes of a tag. -/
  | attribute (fault : AttributeFault)
  /-- A namespace prefix must not be bound to that URI. -/
  | reservedBinding (label uri : Bytes)
  /-- Text or an attribute value is no UTF-8. -/
  | utf8 (fault : Utf8.Fault)
  /-- Text or an attribute value holds a bad reference. -/
  | reference (fault : ReferenceFault)
  /-- The document could not be read. -/
  | unreadable (reason : OsError)
  deriving DecidableEq, Repr

/-- Bytes between double quotes; those that are no printable ASCII are written by number. -/
def showBytes (bytes : Bytes) : String :=
  "\"" ++ String.join (bytes.map showByte) ++ "\""
where
  showByte (b : UInt8) : String :=
    if b == 0x22 then "\\\""
    else if 0x20 ≤ b && b ≤ 0x7e then String.singleton (Char.ofNat b.toNat)
    else "0x" ++ String.ofList ((Nat.toDigits 16 b.toNat).map Char.toUpper)

/-- The fault in words. -/
def Fault.message : Fault → String
  | .unknownDeclaration b =>
    "Only Comment (`--`), CDATA (`[CDATA[`) and DOCTYPE (`DOCTYPE`) nodes can start with a '!', " ++
      "but symbol `" ++ String.singleton (Char.ofNat b.toNat) ++ "` found"
  | .unfinishedDeclaration => "Unexpected EOF during reading Bang"
  | .unfinishedComment => "Unexpected EOF during reading Comment"
  | .unfinishedCData => "Unexpected EOF during reading CData"
  | .unfinishedDoctype => "Unexpected EOF during reading DOCTYPE"
  | .emptyDoctype => "DOCTYPE declaration must not be empty"
  | .unfinishedInstruction => "Unexpected EOF during reading XmlDecl"
  | .wrongEnd expected found => "Expecting </" ++ expected ++ "> found </" ++ found ++ ">"
  | .attribute fault => "error while parsing attribute: " ++ fault.message
  | .reservedBinding label uri =>
    "The namespace prefix '" ++ showBytes label ++ "' cannot be bound to '" ++ showBytes uri ++ "'"
  | .utf8 fault => "Malformed UTF-8 input: " ++ fault.message
  | .reference fault => fault.message
  | .unreadable reason => "I/O error: " ++ reason.message

/-- A failed reference is one that strict reading alone refuses, and so is text that is no UTF-8. -/
def Fault.isUnescaping : Fault → Bool
  | .utf8 _ => true
  | .reference _ => true
  | _ => false

end ResourceShards.Markup
