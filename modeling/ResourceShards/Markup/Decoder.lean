import ResourceShards.Error
import ResourceShards.Markup.Lexeme
import ResourceShards.Markup.Reference

/-!
# ResourceShards.Markup.Decoder

**From bytes to events.** A decoder reads one piece of a document after the other and keeps the
elements that are open: an end tag must repeat the name of the innermost one as it was written, and
names are resolved with the namespaces in force there. An element that its own tag closes gives two
events. Reading stops at the end of the document or at the first thing wrong with it; a document
that ends inside elements is wrong as well.

* `Decoder.step`: one event
* `Document.decode`: all events, and what ended them
-/

namespace ResourceShards.Markup

/-- An element that was opened. -/
structure OpenElement where
  /-- Its name as it was written. -/
  rawName : Bytes
  /-- The namespace bindings in force inside it. -/
  scope : List Binding
  deriving DecidableEq, Repr

namespace OpenElement

/-- Its resolved name. -/
def name (e : OpenElement) : Name :=
  Namespace.elementName e.scope e.rawName

end OpenElement

/-- A decoder inside a document. -/
structure Decoder where
  /-- The bytes that were not read yet. -/
  rest : Bytes
  /-- How many bytes count as read. -/
  taken : Nat := 0
  /-- The open elements, innermost first. -/
  opened : List OpenElement := []
  /-- An element whose own tag closes it and whose end is the next event. -/
  due : Option OpenElement := none
  /-- How many bytes in front of the document are no part of it. -/
  skipped : Nat := 0
  /-- The size of the blocks in which the document arrives, if it does not as a whole. -/
  block? : Option Nat := none

/-- What one step gives. -/
inductive Step where
  /-- The document has ended. -/
  | finished
  /-- The document is wrong. -/
  | failed (e : Error)
  /-- An event, and the decoder after it. -/
  | event (e : Event) (d : Decoder)

namespace Decoder

/-! ### Tags -/

/-- The namespace bindings in force. -/
def scope (d : Decoder) : List Binding :=
  match d.opened with
  | [] => Namespace.initial
  | e :: _ => e.scope

/-- The attributes of a tag. -/
def readAttributes (mode : Strictness) (scope : List Binding) :
    List RawAttribute → Except Fault (List Attribute)
  | [] => .ok []
  | a :: rest => do
    let value ← Reference.readText mode a.value
    return ⟨Namespace.attributeName scope a.key, value⟩ :: (← readAttributes mode scope rest)

/-- The name of a tag as it is written. -/
def tagName (raw : Bytes) : Bytes :=
  raw.takeWhile fun b => !Bytes.isBlank b

/-- Opens an element: what is wrong with its namespaces comes before what is wrong with its
attributes, and those that can be read before those that can not. -/
def openElement (mode : Strictness) (outer : List Binding) (raw : Bytes) :
    Except Fault (OpenElement × StartTag) := do
  let (attributes, bad?) :=
    RawAttribute.readAll raw.length (raw.dropWhile fun b => !Bytes.isBlank b)
  let scope ← Namespace.declare outer attributes
  let element : OpenElement := ⟨tagName raw, scope⟩
  let read ← readAttributes mode scope attributes
  match bad? with
  | some fault => throw (.attribute fault)
  | none => return (element, ⟨element.name, read⟩)

/-- Bytes without the blanks at their end; bytes that are all blank stay as they are. -/
def trimEnd (bytes : Bytes) : Bytes :=
  match bytes.reverse.dropWhile Bytes.isBlank with
  | [] => bytes
  | trimmed => trimmed.reverse

/-- The text that bytes spell, or nothing. -/
def showName (bytes : Bytes) : String :=
  match Utf8.decode bytes with
  | .ok text => text
  | .error _ => ""

/-- Closes the innermost element, if the end tag repeats its name. -/
def closeElement (opened : List OpenElement) (raw : Bytes) :
    Except Fault (OpenElement × List OpenElement) :=
  match opened with
  | [] => .error (.wrongEnd "" (showName raw))
  | e :: outer =>
    if e.rawName == trimEnd raw then .ok (e, outer)
    else .error (.wrongEnd (showName e.rawName) (showName (trimEnd raw)))

/-! ### Steps -/

/-- What follows the last piece: the end, unless elements are open. -/
def atEnd (d : Decoder) (taken : Nat) : Step :=
  if d.opened.isEmpty then .finished
  else .failed (.truncated taken d.opened.length)

/-- An event that leaves the open elements as they are. -/
def plainEvent (d : Decoder) (token : Token) (taken : Nat) (rest : Bytes) : Step :=
  .event ⟨taken, token⟩ { d with rest, taken }

/-- What one piece gives; `taken` bytes were read with it. The end of text is no byte of its own, so
text that ends the document is placed one byte before its end. -/
def piece (mode : Strictness) (d : Decoder) (lexeme : Lexeme) (taken : Nat) (rest : Bytes) : Step :=
  match lexeme with
  | .text raw =>
    let offset := if rest.isEmpty then taken - 1 else taken
    match Reference.readText mode raw with
    | .ok text => .event ⟨offset, .text text⟩ { d with rest, taken }
    | .error fault => .failed (.decode offset fault)
  | .cdata raw => d.plainEvent (.cdata (Utf8.decodeLossy raw)) taken rest
  | .comment raw => d.plainEvent (.comment (Utf8.decodeLossy raw)) taken rest
  | .doctype raw => d.plainEvent (.doctype (Utf8.decodeLossy raw)) taken rest
  | .instruction raw => d.plainEvent (.instruction (Utf8.decodeLossy raw)) taken rest
  | .startTag raw closesItself =>
    match openElement mode d.scope raw with
    | .error fault => .failed (.decode taken fault)
    | .ok (e, tag) =>
      if closesItself then .event ⟨taken, .start tag⟩ { d with rest, taken, due := some e }
      else .event ⟨taken, .start tag⟩ { d with rest, taken, opened := e :: d.opened }
  | .endTag raw =>
    match closeElement d.opened raw with
    | .error fault => .failed (.decode (taken - (raw.length + 1)) fault)
    | .ok (e, outer) => .event ⟨taken, .finish e.name⟩ { d with rest, taken, opened := outer }

/-- The next event. -/
def step (mode : Strictness) (d : Decoder) : Step :=
  match d.due with
  | some e => .event ⟨d.taken, .finish e.name⟩ { d with due := none }
  | none =>
    match Lexeme.read d.block? (d.skipped + d.taken) d.rest with
    | .nothing n => d.atEnd (d.taken + n)
    | .bad n fault => .failed (.decode (d.taken + n) fault)
    | .piece lexeme n rest => d.piece mode lexeme (d.taken + n) rest

/-- How much is left to read: bytes, and an end that is due. -/
def size (d : Decoder) : Nat :=
  2 * d.rest.length + if d.due.isSome then 1 else 0

theorem rest_of_piece {mode : Strictness} {d d' : Decoder} {lexeme : Lexeme} {taken : Nat}
    {rest : Bytes} {e : Event} (h : d.piece mode lexeme taken rest = .event e d') :
    d'.rest = rest := by
  unfold piece plainEvent at h
  split at h
  · simp only at h
    split at h
    · simp only [Step.event.injEq] at h
      simp [← h.2]
    · simp at h
  · simp only [Step.event.injEq] at h
    simp [← h.2]
  · simp only [Step.event.injEq] at h
    simp [← h.2]
  · simp only [Step.event.injEq] at h
    simp [← h.2]
  · simp only [Step.event.injEq] at h
    simp [← h.2]
  · split at h
    · simp at h
    · split at h
      · simp only [Step.event.injEq] at h
        simp [← h.2]
      · simp only [Step.event.injEq] at h
        simp [← h.2]
  · split at h
    · simp at h
    · simp only [Step.event.injEq] at h
      simp [← h.2]

/-- Every event leaves less to read. -/
theorem size_lt_of_step {mode : Strictness} {d d' : Decoder} {e : Event}
    (h : d.step mode = .event e d') : d'.size < d.size := by
  unfold step at h
  split at h
  · rename_i due hdue
    simp only [Step.event.injEq] at h
    simp [← h.2, size, hdue]
  · split at h
    · unfold atEnd at h
      split at h <;> simp at h
    · simp at h
    · rename_i lexeme n rest hread
      have hrest := rest_of_piece h
      have hlt := Lexeme.length_lt_of_read hread
      simp only [size, hrest]
      split <;> omega

/-- The events from here on, last one first, behind those already `seen`; and what ended them. -/
def run (mode : Strictness) (d : Decoder) (seen : List Event) : List Event × Option Error :=
  match _h : d.step mode with
  | .finished => (seen, none)
  | .failed e => (seen, some e)
  | .event e d' => run mode d' (e :: seen)
termination_by d.size
decreasing_by exact size_lt_of_step _h

/-- The byte order mark, which is no part of a document. -/
def mark : Bytes := [0xef, 0xbb, 0xbf]

/-- A decoder at the front of a document. -/
def start (block? : Option Nat) (bytes : Bytes) : Decoder :=
  match Bytes.dropRun? mark bytes with
  | some rest => { rest, skipped := mark.length, block? }
  | none => { rest := bytes, block? }

end Decoder

/-- A document as it is read: its events, and the error that ended them if it was not the end of the
document. -/
structure Document where
  /-- The events. -/
  events : List Event
  /-- What ended them. -/
  fault? : Option Error := none
  deriving DecidableEq, Repr

namespace Document

/-- What a decoder reads. -/
def ofDecoder (mode : Strictness) (d : Decoder) : Document :=
  let (seen, fault?) := d.run mode []
  ⟨seen.reverse, fault?⟩

/-- Reads a document that is there as a whole. -/
def decode (mode : Strictness) (bytes : Bytes) : Document :=
  ofDecoder mode (Decoder.start none bytes)

/-- How many bytes of a file are read at a time. -/
def fileBlock : Nat := 8192

/-- A document that the file system would not read. -/
def unreadable (reason : OsError) : Document :=
  ⟨[], some (.decode 0 (.unreadable reason))⟩

/-- Reads a document from what a file system answers. -/
def read (mode : Strictness) : Except OsError Bytes → Document
  | .ok bytes => ofDecoder mode (Decoder.start (some fileBlock) bytes)
  | .error reason => unreadable reason

end Document

end ResourceShards.Markup
