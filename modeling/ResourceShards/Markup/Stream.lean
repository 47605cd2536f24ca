import ResourceShards.Markup.Decoder

/-!
# ResourceShards.Markup.Stream

**Events on demand.** A stream reads a document as far as it is asked for events. Its tokenizer
knows the open elements by their names as they are written; end tags must repeat them. What names
mean is told by a pile of bindings, each with the depth of the tag that made it. A start tag puts
its bindings on top, and when its element has ended they are taken off again, but only as the next
piece is read, for the name of the end tag is resolved with them. How many elements are open is
counted apart from both.

A stream that has ended gives no more events. What ended it, if that was not the end of the
document, is kept until it is taken.

* `Tokenizer.read`: one piece
* `Pile`: the bindings in force
* `Stream.next`: one event
* `Stream.run`: any calls, one after the other
-/

namespace ResourceShards.Markup

/-! ### Pieces -/

/-- What reads pieces, and checks that end tags match. -/
structure Tokenizer where
  /-- The bytes that were not read yet. -/
  rest : Bytes
  /-- How many bytes count as read. -/
  taken : Nat := 0
  /-- The names of the open elements as they are written, innermost first. -/
  names : List Bytes := []
  /-- The name of an element whose own tag closes it and whose end is the next piece. -/
  due : Option Bytes := none
  /-- How many bytes in front of the document are no part of it. -/
  skipped : Nat := 0
  /-- The size of the blocks in which the document arrives, if it does not as a whole. -/
  block? : Option Nat := none

/-- What a tokenizer gives. -/
inductive Tokenized where
  /-- No piece is left, and so many bytes count as read. -/
  | nothing (taken : Nat)
  /-- The document is wrong. -/
  | failed (e : Error)
  /-- A piece, and the tokenizer behind it. An end tag is given as the name it repeats. -/
  | piece (lexeme : Lexeme) (t : Tokenizer)

namespace Tokenizer

/-- Keeps track of the elements that a piece opens and closes; the tokenizer is behind it. -/
def pass (t : Tokenizer) (lexeme : Lexeme) : Tokenized :=
  match lexeme with
  | .startTag raw closesItself =>
    if closesItself then .piece lexeme { t with due := some (Decoder.tagName raw) }
    else .piece lexeme { t with names := Decoder.tagName raw :: t.names }
  | .endTag raw =>
    let offset := t.taken - (raw.length + 1)
    match t.names with
    | [] => .failed (.decode offset (.wrongEnd "" (Decoder.showName raw)))
    | name :: outer =>
      if name == Decoder.trimEnd raw then .piece (.endTag name) { t with names := outer }
      else
        .failed (.decode offset
          (.wrongEnd (Decoder.showName name) (Decoder.showName (Decoder.trimEnd raw))))
  | _ => .piece lexeme t

/-- The next piece. -/
def read (t : Tokenizer) : Tokenized :=
  match t.due with
  | some name => .piece (.endTag name) { t with due := none }
  | none =>
    match Lexeme.read t.block? (t.skipped + t.taken) t.rest with
    | .nothing n => .nothing (t.taken + n)
    | .bad n fault => .failed (.decode (t.taken + n) fault)
    | .piece lexeme n rest => { t with rest, taken := t.taken + n }.pass lexeme

end Tokenizer

/-! ### Bindings -/

/-- The bindings in force. -/
structure Pile where
  /-- Bindings with the depths of the tags that made them, latest first. -/
  entries : List (Nat × Binding) := Namespace.initial.map fun b => (0, b)
  /-- How many elements have bindings here. -/
  depth : Nat := 0
  /-- Whether the innermost of them has ended. -/
  ended : Bool := false

namespace Pile

/-- The bindings without their depths. -/
def scope (p : Pile) : List Binding :=
  p.entries.map Prod.snd

/-- Takes off the bindings of an element that has ended. -/
def settle (p : Pile) : Pile :=
  if p.ended then
    { entries := p.entries.dropWhile fun entry => decide (p.depth - 1 < entry.1)
      depth := p.depth - 1 }
  else p

/-- Puts the binding of one attribute on top, if it makes one. -/
def declareOne (p : Pile) (a : RawAttribute) : Except Fault Pile :=
  match Namespace.declareOne [] a with
  | .ok fresh => .ok { p with entries := fresh.map (fun b => (p.depth, b)) ++ p.entries }
  | .error fault => .error fault

/-- Puts the bindings of a tag's attributes on top. -/
def declare (p : Pile) (attributes : List RawAttribute) : Except Fault Pile :=
  attributes.foldlM declareOne p

/-- Puts the bindings of an element on top. -/
def enter (p : Pile) (attributes : List RawAttribute) : Except Fault Pile :=
  { p with depth := p.depth + 1 }.declare attributes

/-- What a start tag says, and the bindings inside its element: what is wrong with its namespaces
comes before what is wrong with its attributes. -/
def openElement (p : Pile) (mode : Strictness) (raw : Bytes) : Except Fault (StartTag × Pile) := do
  let (attributes, bad?) :=
    RawAttribute.readAll raw.length (raw.dropWhile fun b => !Bytes.isBlank b)
  let inside ← p.enter attributes
  let read ← Decoder.readAttributes mode inside.scope attributes
  match bad? with
  | some fault => throw (.attribute fault)
  | none => return (⟨Namespace.elementName inside.scope (Decoder.tagName raw), read⟩, inside)

end Pile

/-! ### Streams -/

/-- A stream inside a document. -/
structure Stream where
  /-- What is done about bad text. -/
  mode : Strictness
  /-- What reads pieces. -/
  tokenizer : Tokenizer
  /-- The bindings in force. -/
  pile : Pile := {}
  /-- How many elements are open. -/
  opened : Nat := 0
  /-- What ended the stream, until it is taken. -/
  error? : Option Error := none
  /-- Whether the stream has ended. -/
  done : Bool := false

namespace Stream

/-- A stream at the front of a document. -/
def start (mode : Strictness) (block? : Option Nat) (bytes : Bytes) : Stream :=
  match Bytes.dropRun? Decoder.mark bytes with
  | some rest => { mode, tokenizer := { rest, skipped := Decoder.mark.length, block? } }
  | none => { mode, tokenizer := { rest := bytes, block? } }

/-- An event that leaves elements and bindings as they are. -/
def plainEvent (s : Stream) (token : Token) : Except Error (Option (Event × Stream)) :=
  .ok (some (⟨s.tokenizer.taken, token⟩, s))

/-- The event of a piece; the stream is behind it already. -/
def emit (s : Stream) : Lexeme → Except Error (Option (Event × Stream))
  | .text raw =>
    let offset :=
      if s.tokenizer.rest.isEmpty then s.tokenizer.taken - 1 else s.tokenizer.taken
    match Reference.readText s.mode raw with
    | .ok text => .ok (some (⟨offset, .text text⟩, s))
    | .error fault => .error (.decode offset fault)
  | .cdata raw => s.plainEvent (.cdata (Utf8.decodeLossy raw))
  | .comment raw => s.plainEvent (.comment (Utf8.decodeLossy raw))
  | .doctype raw => s.plainEvent (.doctype (Utf8.decodeLossy raw))
  | .instruction raw => s.plainEvent (.instruction (Utf8.decodeLossy raw))
  | .startTag raw _ =>
    match s.pile.openElement s.mode raw with
    | .error fault => .error (.decode s.tokenizer.taken fault)
    | .ok (tag, pile) =>
      .ok (some (⟨s.tokenizer.taken, .start tag⟩, { s with pile, opened := s.opened + 1 }))
  | .endTag name =>
    .ok (some (⟨s.tokenizer.taken, .finish (Namespace.elementName s.pile.scope name)⟩,
      { s with pile := { s.pile with ended := true }, opened := s.opened - 1 }))

/-- What follows what the tokenizer gives. The document must not end inside an element. -/
def receive (s : Stream) : Tokenized → Except Error (Option (Event × Stream))
  | .nothing taken => if 0 < s.opened then .error (.truncated taken s.opened) else .ok none
  | .failed e => .error e
  | .piece lexeme tokenizer => { s with tokenizer, pile := s.pile.settle }.emit lexeme

/-- Reads an event, or finds that the document has ended. -/
def read (s : Stream) : Except Error (Option (Event × Stream)) :=
  s.receive s.tokenizer.read

/-- The next event, or none if the stream has ended. -/
def next (s : Stream) : Option Event × Stream :=
  if s.done then (none, s)
  else
    match s.read with
    | .ok (some (e, after)) => (some e, after)
    | .ok none => (none, { s with done := true })
    | .error e => (none, { s with done := true, error? := some e })

/-- Takes the error that ended the stream. -/
def takeError (s : Stream) : Option Error × Stream :=
  (s.error?, { s with error? := none })

/-- What a stream can be asked for. -/
inductive Call where
  /-- The next event. -/
  | next
  /-- The error. -/
  | takeError
  deriving DecidableEq, Repr

/-- The events that calls give, and the stream after them. -/
def run (s : Stream) : List Call → List Event × Stream
  | [] => ([], s)
  | .next :: rest =>
    match s.next with
    | (some e, after) =>
      let (events, last) := after.run rest
      (e :: events, last)
    | (none, after) => after.run rest
  | .takeError :: rest => s.takeError.2.run rest

end Stream

end ResourceShards.Markup
