import ResourceShards.Files.Tree
import ResourceShards.Listing.Inline
import ResourceShards.Resource.File

/-!
# ResourceShards.Listing.File

**The resources of one file.** A file that is a resource is listed first. Then documents are read:
values files for what they declare, others for the ids they make. Raw files are never read, a file
with an extension is read if that is `xml`, and a file without is read if it begins as a document
does.
-/

namespace ResourceShards

open Markup (Document)

/-- What is known of a file's contents. -/
inductive Opened where
  /-- They were given. -/
  | given (contents : Bytes)
  /-- They are looked for on a disk, which answers with the file, a directory or a refusal. -/
  | looked (answer : Except OsError (Tree Bytes))

namespace Listing

variable {σ : Type}

/-- What a document begins with. -/
def documentMark : Bytes := Bytes.ofString "<?xml"

/-- Whether a file begins as a document does. -/
def beginsDocument (bytes : Bytes) : Bool :=
  bytes.take documentMark.length == documentMark

/-- Whether a file is read as a document. -/
def needsReading (file : ResourceFile) (opened : Opened) : Except Error Bool :=
  if file.type == .raw then .ok false
  else
    match file.path.extension? with
    | some extension => .ok (extension == Bytes.ofString "xml")
    | none =>
      match opened with
      | .given bytes => .ok (beginsDocument bytes)
      | .looked (.error reason) => .error (.io .openFile file.path reason.message)
      | .looked (.ok found) =>
        match found.contents with
        | .error reason => .error (.io .readFile file.path reason.message)
        | .ok bytes => .ok (beginsDocument bytes)

/-- The document in a file, if the file can be opened. -/
def document (file : ResourceFile) : Opened → Except Error Document
  | .given bytes => .ok (.decode .lenient bytes)
  | .looked (.error reason) => .error (.io .openFile file.path reason.message)
  | .looked (.ok found) => .ok (.read .lenient found.contents)

/-- Lists the resources of a file. -/
def file (label : String) (file : ResourceFile) (opened : Opened) (emit : Listener Resource σ) :
    Listening σ Unit := do
  match file.resource? with
  | .error e => throw (e.withLabel label)
  | .ok none => pure ()
  | .ok (some name) => emit { name }
  match needsReading file opened with
  | .error e => throw (e.withLabel label)
  | .ok false => pure ()
  | .ok true =>
    let place := label ++ file.path.display ++ " xml-parse: "
    match document file opened with
    | .error e => throw (e.withLabel place)
    | .ok document =>
      Reading.document document (Error.withLabel place)
        (if file.isValues then declared (place ++ "mini-values-parse: ") emit
          else madeIds (place ++ "mini-non-values-parse: ") emit)

/-- The resources of a file, and how its listing ends. -/
def ofFile (label : String) (f : ResourceFile) (opened : Opened) :
    List Resource × Except Error Unit :=
  Listening.trace fun emit => file label f opened emit

end Listing

end ResourceShards
