import ResourceShards.Files.Path
import ResourceShards.Markup.Fault
import ResourceShards.Resource.Type
import ResourceShards.Text.Decimal

/-!
# ResourceShards.Error

**What can go wrong.** Each cause of a failure is a constructor of `Error`, with what its message
needs. On the way out an error gathers labels that say where it happened; `Error.root` is the cause
below them and `Error.message` the whole text, labels first.
-/

namespace ResourceShards

/-- Something done to a file that the file system refused. -/
inductive FileStep where
  | openFile
  | readFile
  | openForReading
  | copyIntoArchive
  | walk
  | makeDirectory
  | createOutput
  deriving DecidableEq, Repr

/-- The step in words. -/
def FileStep.text : FileStep → String
  | openFile => "open failed"
  | readFile => "read failed"
  | openForReading => "could not be opened for reading"
  | copyIntoArchive => "could not copy into archive"
  | walk => "got error while walking"
  | makeDirectory => "could not create directory"
  | createOutput => "could not create output"

/-- Something done to an archive. -/
inductive ArchiveStep where
  | createWriter
  | createEntry
  | createOutputEntry
  deriving DecidableEq, Repr

/-- The step in words. -/
def ArchiveStep.text : ArchiveStep → String
  | createWriter => "could not create writer"
  | createEntry => "could not create entry"
  | createOutputEntry => "create output entry"

/-- Why an archive gets no entry. -/
inductive ArchiveFault where
  /-- The archive holds an entry of that name. -/
  | duplicate (entry : String)
  /-- All names for the entry are in use. No caller ever sees this fault: the search for another
  name goes on for ever, and the fault stands for a call that does not return. -/
  | endless (entry : String)
  deriving DecidableEq, Repr

/-- The reason in words. -/
def ArchiveFault.message : ArchiveFault → String
  | duplicate entry => "invalid Zip archive: Duplicate filename: " ++ entry
  | endless entry => "search for another name has no end: " ++ entry

/-- A failure: a cause, or a labelled failure. -/
inductive Error where
  /-- The file lies in no type directory. -/
  | notResourcePath
  /-- The file is hidden. -/
  | hiddenFile
  /-- No resource type has that name. -/
  | unknownType (name : String)
  /-- A density qualifier with a bad number. -/
  | badDensity (segment : String) (fault : Decimal.Fault)
  /-- A name begins with a separator or has one in its package. -/
  | malformedName (raw : String)
  /-- Neither the name nor its context tells a type. -/
  | undeterminedType (raw : String) (context : ResourceType)
  /-- Nothing is left for the name itself. -/
  | undeterminedName (raw : String) (context : ResourceType)
  /-- A name of another type than the place asks for. -/
  | wrongType (expected : ResourceType) (found : String)
  /-- The document can not be read on. -/
  | decode (offset : Nat) (fault : Markup.Fault)
  /-- The document ends inside elements. -/
  | truncated (offset : Nat) (unclosed : Nat)
  /-- No prefix stands for the namespace. -/
  | unknownNamespace (space : String)
  /-- An end tag closes another element. -/
  | unbalancedTags (expected found : String)
  /-- A tag lacks an attribute or has it empty. -/
  | missingAttribute (tag attr : String)
  /-- A tag that declares nothing. -/
  | unhandledTag (tag : String)
  /-- One file declares a resource twice with values that are equally long. -/
  | valueConflict (name : String)
  /-- A sharder answered out of range. -/
  | badShard (sharder key : String) (shards got : Nat)
  /-- No archive takes resources of the type. -/
  | noOutput (type : ResourceType)
  /-- Paths and contents differ in number. -/
  | contentsMismatch (paths contents : Nat)
  /-- No archive to write to. -/
  | noWriters
  /-- An output that is not given as type and file. -/
  | outputSpec (spec : String)
  /-- The file system refused. -/
  | io (step : FileStep) (path : Path) (reason : String)
  /-- An archive refused. -/
  | archive (step : ArchiveStep) (entry : String) (fault : ArchiveFault)
  /-- Writing failed. -/
  | write (reason : String)
  /-- A task could not be started. -/
  | spawn (reason : String)
  /-- The run was cancelled. -/
  | cancelled
  /-- A failure and where it happened. -/
  | labelled (label : String) (cause : Error)
  deriving DecidableEq, Repr

namespace Error

/-- The whole message, labels first. -/
def message : Error → String
  | notResourcePath => "Not a resource path"
  | hiddenFile => "resource path that needs to be skipped"
  | unknownType name => name ++ ": unknown type"
  | badDensity segment fault => segment ++ ": unparsable density: " ++ fault.message
  | malformedName raw =>
    "malformed name " ++ Text.quote raw ++
      " - can not start with ':' or '/', nor hold '/' in its package"
  | undeterminedType raw context =>
    "cannot determine type from " ++ Text.quote raw ++ " and " ++ context.name ++
      " - not a valid name"
  | undeterminedName raw context =>
    "cannot determine name from " ++ Text.quote raw ++ " and " ++ context.name ++
      " - not a valid name"
  | wrongType expected found => found ++ ": expected resource of type " ++ expected.name
  | decode offset fault =>
    "offset: " ++ toString offset ++ " xml error: " ++ fault.message
  | truncated offset unclosed =>
    "offset: " ++ toString offset ++ " xml error: document ended with " ++ toString unclosed ++
      " unclosed element(s)"
  | unknownNamespace space => "unknown namespace " ++ Text.quote space
  | unbalancedTags expected found =>
    "unbalanced tags: expected </" ++ expected ++ "> but got </" ++ found ++ ">"
  | missingAttribute tag attr =>
    tag ++ ": tag is missing " ++ Text.quote attr ++ " attribute or is empty"
  | unhandledTag tag => tag ++ ": is an unhandled tag"
  | valueConflict name => "different values for resource " ++ Text.quote name
  | badShard sharder key shards got =>
    sharder ++ ": bad sharder f(" ++ Text.quote key ++ ", " ++ toString shards ++ ") -> " ++
      toString got ++ " must be [0, " ++ toString shards ++ ")"
  | noOutput type => type.name ++ ": no output archives configured for this resource type"
  | contentsMismatch paths contents =>
    "got " ++ toString paths ++ " paths and " ++ toString contents ++ " contents"
  | noWriters => "no output writers"
  | outputSpec spec => Text.quote spec ++ ": expected <res-type>:<file>"
  | io step path reason => path.display ++ ": " ++ step.text ++ ": " ++ reason
  | archive step entry fault => entry ++ ": " ++ step.text ++ ": " ++ fault.message
  | write reason => "write failed: " ++ reason
  | spawn reason => "could not spawn pipeline thread: " ++ reason
  | cancelled => "pipeline cancelled"
  | labelled label cause => label ++ cause.message

/-- The failure with a label in front. An empty label says nothing and is left out. -/
def withLabel (label : String) (e : Error) : Error :=
  if label == "" then e else labelled label e

/-- The cause below all labels. -/
def root : Error → Error
  | labelled _ cause => cause.root
  | e => e

/-- Whether the run was cancelled. -/
def isCancelled (e : Error) : Bool :=
  e.root == cancelled

@[simp] theorem root_withLabel (label : String) (e : Error) :
    (e.withLabel label).root = e.root := by
  unfold withLabel
  split
  · rfl
  · rfl

/-- The outcome with its failure labelled. -/
def labelling {α : Type} (label : String) : Except Error α → Except Error α
  | .ok a => .ok a
  | .error e => .error (e.withLabel label)

end Error

end ResourceShards
