import ResourceShards.Markup.Namespace

/-!
# ResourceShards.Markup.Lexeme

**The pieces a document falls into.** Text reaches to the next `<`; what `<` begins is told by the
byte after it. A piece is read without regard to those before it, and holds what stands between its
delimiters. Whether a document arrives as a whole or block by block matters to document types only.

* `Lexeme.read`: the first piece of a byte sequence
* `RawAttribute.readAll`: the attributes of a start tag
-/

namespace ResourceShards.Markup

/-- A piece of a document. -/
inductive Lexeme where
  /-- Text. -/
  | text (raw : Bytes)
  /-- A CDATA section. -/
  | cdata (raw : Bytes)
  /-- A comment. -/
  | comment (raw : Bytes)
  /-- A document type. -/
  | doctype (raw : Bytes)
  /-- A processing instruction or the XML declaration. -/
  | instruction (raw : Bytes)
  /-- A start tag; an empty element is closed by its own tag. -/
  | startTag (raw : Bytes) (closesItself : Bool)
  /-- An end tag. -/
  | endTag (raw : Bytes)
  deriving DecidableEq, Repr

/-- What is at the front of a byte sequence; `taken` counts the bytes that were read. -/
inductive Lexed where
  /-- No piece is left; a last `<` counts as read. -/
  | nothing (taken : Nat)
  /-- The document can not be read on; the fault is placed behind `taken` bytes. -/
  | bad (taken : Nat) (fault : Fault)
  /-- A piece, and the bytes after it. -/
  | piece (lexeme : Lexeme) (taken : Nat) (rest : Bytes)
  deriving DecidableEq, Repr

/-- How the rest of a document arrives. -/
inductive Arrival where
  /-- As a whole. -/
  | whole
  /-- In blocks of `size` bytes, the next of which begins after `toNext` bytes. -/
  | blocks (size toNext : Nat)
  deriving DecidableEq, Repr

namespace Arrival

/-- How a document arrives from a position on. -/
def ofPosition (block? : Option Nat) (position : Nat) : Arrival :=
  match block? with
  | none => whole
  | some size => blocks size ((size - position % size) % size)

/-- Whether a block begins with the next byte, and how the document arrives after it. -/
def pass : Arrival → Bool × Arrival
  | whole => (false, whole)
  | blocks size 0 => (true, blocks size (size - 1))
  | blocks size (toNext + 1) => (false, blocks size toNext)

end Arrival

namespace Lexeme

/-! ### Bytes with a meaning -/

/-- The byte `<`. -/
def opening : UInt8 := 0x3c

/-- The byte `>`. -/
def closing : UInt8 := 0x3e

/-- The byte `/`. -/
def slash : UInt8 := 0x2f

/-- The byte `?`. -/
def question : UInt8 := 0x3f

/-- A letter in its small form. -/
def lower (b : UInt8) : UInt8 :=
  if 0x41 ≤ b && b ≤ 0x5a then b + 0x20 else b

/-- `bytes` without the word `word` at their front, whatever the case of its letters. -/
def dropWord? (word : String) (bytes : Bytes) : Option Bytes :=
  let word := Bytes.ofString word
  if (bytes.take word.length).map lower == word.map lower && word.length ≤ bytes.length then
    some (bytes.drop word.length)
  else none

/-! ### Ends of markup -/

/-- Reads a start tag to the first `>` outside quotes; `quote` is the quote that is open. `seen`
holds what was read, last byte first. -/
def tagEnd (quote : Option UInt8) (seen : Bytes) : Bytes → Option (Bytes × Bytes)
  | [] => none
  | b :: rest =>
    match quote with
    | some q => tagEnd (if b == q then none else some q) (b :: seen) rest
    | none =>
      if b == closing then some (seen.reverse, rest)
      else tagEnd (if b == 0x22 || b == 0x27 then some b else none) (b :: seen) rest

/-- Reads a document type to the `>` that closes it; `depth` counts the `<` inside it that are not
closed, and is counted anew in each block. `seen` holds what was read, last byte first. -/
def doctypeEnd (arrival : Arrival) (depth : Nat) (seen : Bytes) : Bytes → Option (Bytes × Bytes)
  | [] => none
  | b :: rest =>
    let (beginsBlock, arrival) := arrival.pass
    let depth := if beginsBlock then 0 else depth
    if b == closing then
      match depth with
      | 0 => some (seen.reverse, rest)
      | depth + 1 => doctypeEnd arrival depth (b :: seen) rest
    else doctypeEnd arrival (if b == opening then depth + 1 else depth) (b :: seen) rest

/-- What stands before the first `>`, how many bytes reach past it, and what follows. Where there
is no `>` the end of the document takes its place. -/
def toClosing (bytes : Bytes) : Bytes × Nat × Bytes :=
  let raw := bytes.takeWhile (· != closing)
  match bytes.dropWhile (· != closing) with
  | [] => (raw, raw.length, [])
  | _ :: rest => (raw, raw.length + 1, rest)

/-! ### Pieces -/

/-- A comment; `bytes` are those after `<!`. Its two opening dashes are not part of its end. -/
def readComment (bytes : Bytes) : Lexed :=
  match Bytes.cutRun [0x2d, 0x2d, closing] [] (bytes.drop 2) with
  | none => .bad 1 .unfinishedComment
  | some (raw, rest) =>
    if (dropWord? "--" bytes).isSome then .piece (.comment raw) (raw.length + 7) rest
    else .bad (raw.length + 7) .unfinishedComment

/-- A CDATA section; `bytes` are those after `<!`. -/
def readCData (bytes : Bytes) : Lexed :=
  match Bytes.cutRun [0x5d, 0x5d, closing] [] bytes with
  | none => .bad 1 .unfinishedCData
  | some (raw, rest) =>
    match dropWord? "[CDATA[" raw with
    | some content => .piece (.cdata content) (raw.length + 5) rest
    | none => .bad (raw.length + 5) .unfinishedCData

/-- A document type; `bytes` are those after `<!`. -/
def readDoctype (arrival : Arrival) (bytes : Bytes) : Lexed :=
  match doctypeEnd arrival 0 [] bytes with
  | none => .bad 1 .unfinishedDoctype
  | some (raw, rest) =>
    match dropWord? "DOCTYPE" raw with
    | none => .bad (raw.length + 3) .unfinishedDoctype
    | some content =>
      match content.dropWhile Bytes.isBlank with
      | [] => .bad (raw.length + 3) .emptyDoctype
      | content => .piece (.doctype content) (raw.length + 3) rest

/-- Markup that begins with `<!`; `bytes` are those after it. Its end is looked for first: faults of
markup that has none are placed after the `<`, others after the end. -/
def readDeclaration (arrival : Arrival) (bytes : Bytes) : Lexed :=
  match bytes with
  | [] => .bad 1 .unfinishedDeclaration
  | b :: _ =>
    if b == 0x5b then readCData bytes
    else if b == 0x2d then readComment bytes
    else if lower b == 0x64 then readDoctype arrival bytes
    else .bad 1 (.unknownDeclaration b)

/-- A processing instruction; `bytes` are those after `<?`. Its fault is placed after the `<`, or
one byte earlier if the document ends before a `>`. -/
def readInstruction (bytes : Bytes) : Lexed :=
  let (raw, taken, rest) := toClosing bytes
  if 2 ≤ raw.length && raw.getLast? == some question then
    .piece (.instruction raw.dropLast) (taken + 2) rest
  else .bad (taken + 2 - (raw.length + 1)) .unfinishedInstruction

/-- An end tag; `bytes` are those after `</`. -/
def readEnd (bytes : Bytes) : Lexed :=
  let (raw, taken, rest) := toClosing bytes
  .piece (.endTag raw) (taken + 2) rest

/-- A start tag with this content; a `/` at its end says that the tag closes the element too. -/
def startOf (raw : Bytes) (taken : Nat) (rest : Bytes) : Lexed :=
  if raw.getLast? == some slash then .piece (.startTag raw.dropLast true) taken rest
  else .piece (.startTag raw false) taken rest

/-- A start tag; `bytes` are those after its `<`. One that the end of the document cuts off is taken
as it is, but only its `<` counts as read. -/
def readStart (bytes : Bytes) : Lexed :=
  match tagEnd none [] bytes with
  | some (raw, rest) => startOf raw (raw.length + 2) rest
  | none => startOf bytes 1 []

/-- Text that begins with `b`; `bytes` are those after it. -/
def readTextFrom (b : UInt8) (bytes : Bytes) : Lexed :=
  let more := bytes.takeWhile (· != opening)
  .piece (.text (b :: more)) (more.length + 1) (bytes.dropWhile (· != opening))

/-- The first piece of what is left of a document from a position on. -/
def read (block? : Option Nat) (position : Nat) : Bytes → Lexed
  | [] => .nothing 0
  | b :: after =>
    if b != opening then readTextFrom b after
    else
      match after with
      | [] => .nothing 1
      | c :: inner =>
        if c == 0x21 then readDeclaration (.ofPosition block? (position + 2)) inner
        else if c == slash then readEnd inner
        else if c == question then readInstruction inner
        else readStart after

/-! ### A piece leaves fewer bytes -/

theorem tagEnd_length {quote : Option UInt8} {seen bytes raw rest : Bytes}
    (h : tagEnd quote seen bytes = some (raw, rest)) : rest.length < bytes.length := by
  induction bytes generalizing quote seen with
  | nil => simp [tagEnd] at h
  | cons b bytes ih =>
    unfold tagEnd at h
    split at h
    · exact Nat.lt_succ_of_lt (ih h)
    · split at h
      · simp only [Option.some.injEq, Prod.mk.injEq] at h
        simp [h.2]
      · exact Nat.lt_succ_of_lt (ih h)

theorem doctypeEnd_length {arrival : Arrival} {depth : Nat} {seen bytes raw rest : Bytes}
    (h : doctypeEnd arrival depth seen bytes = some (raw, rest)) : rest.length < bytes.length := by
  induction bytes generalizing arrival depth seen with
  | nil => simp [doctypeEnd] at h
  | cons b bytes ih =>
    simp only [doctypeEnd] at h
    split at h
    · split at h
      · simp only [Option.some.injEq, Prod.mk.injEq] at h
        simp [h.2]
      · exact Nat.lt_succ_of_lt (ih h)
    · exact Nat.lt_succ_of_lt (ih h)

theorem cutRun_length {run seen bytes before after : Bytes}
    (h : Bytes.cutRun run seen bytes = some (before, after)) : after.length ≤ bytes.length := by
  induction bytes generalizing seen with
  | nil =>
    unfold Bytes.cutRun at h
    split at h
    · rename_i rest hrest
      simp only [Option.some.injEq, Prod.mk.injEq] at h
      have := congrArg List.length (Bytes.dropRun?_eq hrest)
      simp only [List.length_append, List.length_nil] at this
      rw [← h.2]
      simp only [List.length_nil]
      omega
    · simp at h
  | cons b bytes ih =>
    unfold Bytes.cutRun at h
    split at h
    · rename_i rest hrest
      simp only [Option.some.injEq, Prod.mk.injEq] at h
      have := congrArg List.length (Bytes.dropRun?_eq hrest)
      simp only [List.length_append, List.length_cons] at this
      rw [← h.2]
      simp only [List.length_cons]
      omega
    · exact Nat.le_succ_of_le (ih h)

theorem readDeclaration_length {arrival : Arrival} {bytes rest : Bytes} {lexeme : Lexeme}
    {n : Nat} (h : readDeclaration arrival bytes = .piece lexeme n rest) :
    rest.length ≤ bytes.length := by
  unfold readDeclaration at h
  split at h
  · simp at h
  · split at h
    · unfold readCData at h
      split at h
      · simp at h
      · rename_i hcut
        split at h
        · simp only [Lexed.piece.injEq] at h
          rw [← h.2.2]
          exact cutRun_length hcut
        · simp at h
    · split at h
      · unfold readComment at h
        split at h
        · simp at h
        · rename_i hcut
          split at h
          · simp only [Lexed.piece.injEq] at h
            rw [← h.2.2]
            exact Nat.le_trans (cutRun_length hcut) (by simp only [List.length_drop]; omega)
          · simp at h
      · split at h
        · unfold readDoctype at h
          split at h
          · simp at h
          · rename_i hcut
            split at h
            · simp at h
            · split at h
              · simp at h
              · simp only [Lexed.piece.injEq] at h
                rw [← h.2.2]
                exact Nat.le_of_lt (doctypeEnd_length hcut)
        · simp at h

theorem toClosing_length (bytes : Bytes) : (toClosing bytes).2.2.length ≤ bytes.length := by
  unfold toClosing
  have := (List.dropWhile_sublist (· != closing) (l := bytes)).length_le
  split
  · simp
  · rename_i heq
    rw [heq] at this
    simp only [List.length_cons] at this ⊢
    omega

theorem rest_startOf {raw rest rest' : Bytes} {taken n : Nat} {lexeme : Lexeme}
    (h : startOf raw taken rest' = .piece lexeme n rest) : rest = rest' := by
  unfold startOf at h
  split at h <;> simp_all

/-- What follows the first piece is shorter than the whole. -/
theorem length_lt_of_read {block? : Option Nat} {position : Nat} {bytes rest : Bytes}
    {lexeme : Lexeme} {n : Nat} (h : read block? position bytes = .piece lexeme n rest) :
    rest.length < bytes.length := by
  unfold read at h
  split at h
  · simp at h
  · rename_i b after
    split at h
    · simp only [readTextFrom, Lexed.piece.injEq] at h
      rw [← h.2.2]
      have := (List.dropWhile_sublist (· != opening) (l := after)).length_le
      simp only [List.length_cons]
      omega
    · split at h
      · simp at h
      · rename_i c inner
        have hclosing := toClosing_length inner
        split at h
        · have := readDeclaration_length h
          simp only [List.length_cons]
          omega
        · split at h
          · simp only [readEnd, Lexed.piece.injEq] at h
            rw [← h.2.2]
            exact Nat.lt_succ_of_lt (Nat.lt_succ_of_le hclosing)
          · split at h
            · simp only [readInstruction] at h
              split at h
              · simp only [Lexed.piece.injEq] at h
                rw [← h.2.2]
                exact Nat.lt_succ_of_lt (Nat.lt_succ_of_le hclosing)
              · simp at h
            · unfold readStart at h
              split at h
              · rename_i raw rest' hend
                have := tagEnd_length hend
                rw [rest_startOf h]
                simp only [List.length_cons] at *
                omega
              · rw [rest_startOf h]
                simp

end Lexeme

/-! ### Attributes -/

namespace RawAttribute

/-- The first attribute of a tag. -/
inductive First where
  /-- Only blanks are left. -/
  | nothing
  /-- An attribute that can not be read. -/
  | bad (fault : AttributeFault)
  /-- An attribute, and the bytes after it. -/
  | one (attr : RawAttribute) (rest : Bytes)
  deriving DecidableEq, Repr

/-- The byte `=`. -/
def equals : UInt8 := 0x3d

/-- Bytes of a key after its first one. -/
def inKey (b : UInt8) : Bool :=
  b != equals && !Bytes.isBlank b

/-- The value behind an `=`, in a tag of `size` bytes. -/
def readValue (size : Nat) (key : Bytes) (bytes : Bytes) : First :=
  match bytes.dropWhile Bytes.isBlank with
  | [] => .bad (.noValue size)
  | q :: inner =>
    if q == 0x22 || q == 0x27 then
      match Bytes.cutFirst q inner with
      | some (value, rest) => .one ⟨key, value⟩ rest
      | none => .bad (.unclosed size q)
    else .bad (.noQuote (size - (inner.length + 1)))

/-- Reads one attribute from what is left of a tag of `size` bytes. -/
def readFirst (size : Nat) (bytes : Bytes) : First :=
  match bytes.dropWhile Bytes.isBlank with
  | [] => .nothing
  | k :: more =>
    match (more.dropWhile inKey).dropWhile Bytes.isBlank with
    | [] => .bad (.noEquals size)
    | b :: after =>
      if b == equals then readValue size (k :: more.takeWhile inKey) after
      else .bad (.noEquals (size - (after.length + 1)))

theorem length_dropWhile_le (p : UInt8 → Bool) (bytes : Bytes) :
    (bytes.dropWhile p).length ≤ bytes.length :=
  (List.dropWhile_sublist p).length_le

theorem readValue_length {size : Nat} {key bytes rest : Bytes} {a : RawAttribute}
    (h : readValue size key bytes = .one a rest) : rest.length < bytes.length := by
  unfold readValue at h
  split at h
  · simp at h
  · rename_i q inner hdrop
    split at h
    · split at h
      · rename_i value rest' hcut
        simp only [First.one.injEq] at h
        have h1 := congrArg List.length (Bytes.cutFirst_eq hcut)
        have h2 := length_dropWhile_le Bytes.isBlank bytes
        rw [hdrop] at h2
        rw [← h.2]
        simp only [List.length_append, List.length_cons] at h1 h2
        omega
      · simp at h
    · simp at h

/-- An attribute leaves fewer bytes. -/
theorem length_lt_of_readFirst {size : Nat} {bytes rest : Bytes} {a : RawAttribute}
    (h : readFirst size bytes = .one a rest) : rest.length < bytes.length := by
  unfold readFirst at h
  split at h
  · simp at h
  · rename_i k more hdrop
    split at h
    · simp at h
    · rename_i b after hafter
      split at h
      · have h0 := readValue_length h
        have h1 := length_dropWhile_le Bytes.isBlank bytes
        have h2 := length_dropWhile_le Bytes.isBlank (more.dropWhile inKey)
        have h3 := length_dropWhile_le inKey more
        rw [hdrop] at h1
        rw [hafter] at h2
        simp only [List.length_cons] at h1 h2
        omega
      · simp at h

/-- The attributes of a tag of `size` bytes up to the first that can not be read, and what is wrong
with that one. -/
def readAll (size : Nat) (bytes : Bytes) : List RawAttribute × Option AttributeFault :=
  match _h : readFirst size bytes with
  | .nothing => ([], none)
  | .bad fault => ([], some fault)
  | .one a rest =>
    let (attributes, fault?) := readAll size rest
    (a :: attributes, fault?)
termination_by bytes.length
decreasing_by exact length_lt_of_readFirst _h

end RawAttribute

end ResourceShards.Markup
