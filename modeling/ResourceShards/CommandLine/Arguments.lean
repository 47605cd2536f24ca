import ResourceShards.Files.Path
import ResourceShards.Text.Decimal

/-!
# ResourceShards.CommandLine.Arguments

**Reading a command line.** A line names a command and gives options to it. Options that apply to
every command may stand before or after its name; where one is given on both sides, the one after
the name counts. An option may be given once on each side, unless it collects values.

* `Invocation.read`: what a line asks for
-/

namespace ResourceShards.CommandLine

/-! ### Options -/

/-- How many values an option takes. -/
inductive Arity where
  | none
  | one
  /-- One or more, up to the next option. The option may be repeated. -/
  | many
  deriving DecidableEq, Repr

/-- What the values of an option must be. -/
inductive ValueKind where
  | text
  /-- A text that is not empty. -/
  | path
  /-- A number of 64 bits. -/
  | number
  deriving DecidableEq, Repr

/-- An option. -/
structure OptionSpec where
  /-- Its name, after two hyphens. -/
  name : String
  /-- Its letter, after one hyphen. -/
  letter? : Option Char := .none
  /-- How many values it takes. -/
  arity : Arity
  /-- What they must be. -/
  kind : ValueKind := .text
  deriving DecidableEq, Repr

/-- Why a line can not be read. -/
inductive UsageFault where
  /-- No command is given. -/
  | missingCommand
  /-- There is no command of that name. -/
  | unknownCommand (name : String)
  /-- An argument that nothing asks for. -/
  | unexpected (argument : String)
  /-- An option lacks its value. -/
  | missingValue (option : String)
  /-- An option has a value of the wrong kind, or one too many. -/
  | badValue (option value : String)
  /-- An option is given twice. -/
  | repeated (option : String)
  /-- An option that must be given is not. -/
  | missingOption (option : String)
  deriving DecidableEq, Repr

/-- The fault in words. -/
def UsageFault.message : UsageFault → String
  | missingCommand => "a command is required: bucketize, liteparse or zipshard"
  | unknownCommand name => "unrecognized subcommand '" ++ name ++ "'"
  | unexpected argument => "unexpected argument '" ++ argument ++ "' found"
  | missingValue option => "a value is required for '--" ++ option ++ "' but none was supplied"
  | badValue option value => "invalid value '" ++ value ++ "' for '--" ++ option ++ "'"
  | repeated option => "the argument '--" ++ option ++ "' cannot be used multiple times"
  | missingOption option => "the following required arguments were not provided: --" ++ option

/-- Why reading stops before its end. -/
inductive Stop where
  /-- Help is asked for. -/
  | help
  /-- The version is asked for. -/
  | version
  /-- The line can not be read. -/
  | fault (f : UsageFault)
  deriving DecidableEq, Repr

/-- The options that were given, with their values. -/
abbrev Given := List (OptionSpec × List String)

/-- The values of all options of some name. -/
def values (given : Given) (name : String) : List String :=
  (given.filter (·.1.name == name)).flatMap Prod.snd

/-- Whether an option is given. -/
def isGiven (given : Given) (name : String) : Bool :=
  given.any (·.1.name == name)

/-- Whether a value is of the right kind. -/
def fits (kind : ValueKind) (value : String) : Bool :=
  match kind with
  | .text => true
  | .path => value != ""
  | .number => (Decimal.read UInt64.size value).isOk

/-- Takes an option in. -/
def give (given : Given) (option : OptionSpec) (found : List String) : Except Stop Given :=
  if option.name == "help" then .error .help
  else if option.name == "version" then .error .version
  else if option.arity != .many && isGiven given option.name then
    .error (.fault (.repeated option.name))
  else
    match found.find? fun value => !fits option.kind value with
    | some value => .error (.fault (.badValue option.name value))
    | none => .ok (given ++ [(option, found)])

/-- Whether an argument is a value and no option. -/
def isValue (argument : String) : Bool :=
  match argument.toList with
  | '-' :: _ :: _ => false
  | _ => true

/-- The values that follow an option, and the arguments after them. -/
def takeValues (arity : Arity) (arguments : List String) : List String × List String :=
  match arity with
  | .none => ([], arguments)
  | .one =>
    match arguments with
    | value :: rest => if isValue value then ([value], rest) else ([], value :: rest)
    | [] => ([], [])
  | .many => (arguments.takeWhile isValue, arguments.dropWhile isValue)

/-- An option with the values that follow it. -/
def giveNext (given : Given) (option : OptionSpec) (arguments : List String) :
    Except Stop (Given × List String) := do
  let (found, rest) := takeValues option.arity arguments
  if option.arity != .none && found.isEmpty then throw (.fault (.missingValue option.name))
  return (← give given option found, rest)

/-- Options by their letters; the letters after one that takes a value are that value, but for an
equals sign in front. -/
def giveLetters (options : List OptionSpec) (given : Given) (arguments : List String) :
    List Char → Except Stop (Given × List String)
  | [] => .ok (given, arguments)
  | letter :: rest =>
    match options.find? (·.letter? == some letter) with
    | none => .error (.fault (.unexpected ("-" ++ String.singleton letter)))
    | some option =>
      match option.arity, rest with
      | .none, rest => do giveLetters options (← give given option []) arguments rest
      | _, [] => giveNext given option arguments
      | _, '=' :: rest => do return (← give given option [String.ofList rest], arguments)
      | _, rest => do return (← give given option [String.ofList rest], arguments)

/-- An option by its name, perhaps with a value after an equals sign. -/
def giveName (options : List OptionSpec) (given : Given) (arguments : List String)
    (name : List Char) : Except Stop (Given × List String) := do
  let key := String.ofList (name.takeWhile (· != '='))
  match options.find? (·.name == key), name.dropWhile (· != '=') with
  | none, _ => throw (.fault (.unexpected ("--" ++ String.ofList name)))
  | some option, [] => giveNext given option arguments
  | some option, _ :: value =>
    if option.arity == .none then throw (.fault (.badValue option.name (String.ofList value)))
    return (← give given option [String.ofList value], arguments)

/-- Reads options up to the first argument that is none, or to the end; `fuel` bounds their
number. -/
def readOptions (options : List OptionSpec) (given : Given) : (fuel : Nat) → List String →
    Except Stop (Given × List String)
  | 0, arguments => .ok (given, arguments)
  | _, [] => .ok (given, [])
  | fuel + 1, argument :: rest =>
    match argument.toList with
    | ['-', '-'] =>
      match rest with
      | [] => .ok (given, [])
      | first :: _ => .error (.fault (.unexpected first))
    | '-' :: '-' :: name => do
      let (given, rest) ← giveName options given rest name
      readOptions options given fuel rest
    | '-' :: letter :: letters => do
      let (given, rest) ← giveLetters options given rest (letter :: letters)
      readOptions options given fuel rest
    | _ => .ok (given, argument :: rest)

/-! ### Commands -/

/-- What a run is to do. -/
inductive Command where
  /-- Write the resources beneath some paths into archives. -/
  | bucketize (paths : List Path) (outputs : List String)
  /-- List the resources beneath some paths. -/
  | liteparse (files : List Path) (output? : Option Path) (package? : Option String)
  /-- Spread the entries of an archive over others. -/
  | zipshard (input : Path) (outputs : List Path) (separator? : Option String)
  deriving DecidableEq, Repr

/-- What a command line asks for. -/
structure Invocation where
  /-- The file with the settings. -/
  settings? : Option Path
  /-- The number of workers, which counts before that of the settings. -/
  workers? : Option Nat
  /-- Whether only failures are reported. -/
  quiet : Bool
  /-- What to do. -/
  command : Command
  deriving DecidableEq, Repr

/-- Options of every command. -/
def sharedOptions : List OptionSpec :=
  [⟨"config", some 'c', .one, .path⟩, ⟨"workers", some 'w', .one, .number⟩,
    ⟨"verbose", some 'v', .none, .text⟩, ⟨"quiet", some 'q', .none, .text⟩,
    ⟨"help", some 'h', .none, .text⟩]

/-- The option that asks for the version; it stands before a command only. -/
def versionOption : OptionSpec :=
  ⟨"version", some 'V', .none, .text⟩

/-- The options of a command, if there is one of that name. -/
def optionsOf? : String → Option (List OptionSpec)
  | "bucketize" =>
    some [⟨"res-paths", .none, .many, .path⟩, ⟨"typed-outputs", .none, .many, .text⟩]
  | "liteparse" =>
    some [⟨"res-files", .none, .many, .path⟩, ⟨"out", some 'o', .one, .path⟩,
      ⟨"pkg", .none, .one, .text⟩]
  | "zipshard" =>
    some [⟨"input", .none, .one, .path⟩, ⟨"outputs", .none, .many, .path⟩,
      ⟨"separator", .none, .one, .text⟩]
  | _ => none

/-- The values of an option that must be given. -/
def required (given : Given) (name : String) : Except Stop (List String) :=
  match values given name with
  | [] => .error (.fault (.missingOption name))
  | found => .ok found

/-- Paths as they are given. -/
def pathsOf (texts : List String) : List Path :=
  texts.map Path.ofString

/-- What a command is to do with its options. -/
def commandOf (name : String) (given : Given) : Except Stop Command :=
  match name with
  | "bucketize" => do
    return .bucketize (pathsOf (← required given "res-paths")) (← required given "typed-outputs")
  | "liteparse" => do
    return .liteparse (pathsOf (← required given "res-files"))
      ((values given "out").head?.map Path.ofString) (values given "pkg").head?
  | _ => do
    let input := ((← required given "input").headD "")
    return .zipshard (.ofString input) (pathsOf (← required given "outputs"))
      (values given "separator").head?

namespace Invocation

/-- What a command line asks for. -/
def read (arguments : List String) : Except Stop Invocation := do
  let fuel := arguments.length
  let (before, rest) ← readOptions (versionOption :: sharedOptions) [] fuel arguments
  match rest with
  | [] => throw (.fault .missingCommand)
  | "help" :: _ => throw .help
  | name :: rest =>
    match optionsOf? name with
    | none => throw (.fault (.unknownCommand name))
    | some own =>
      let (after, rest) ← readOptions (own ++ sharedOptions) [] fuel rest
      match rest with
      | first :: _ => throw (.fault (.unexpected first))
      | [] =>
        let shared (name : String) : Option String :=
          ((values after name).head?).or (values before name).head?
        return {
          settings? := (shared "config").map Path.ofString
          workers? := (shared "workers").bind fun n => (Decimal.read UInt64.size n).toOption
          quiet := isGiven before "quiet" || isGiven after "quiet"
          command := ← commandOf name after
        }

end Invocation

end ResourceShards.CommandLine
