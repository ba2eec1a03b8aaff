import Regeneration.Command.Basic

/-!
# Arguments

The first argument names a command, or asks for the version or for help. Options
follow in any order, each at most once, as `--name value` or `--name=value`; a
value is not empty and does not look like an option. The arguments are looked at
one after another, so help is given only if nothing before it was wrong.
-/

set_option autoImplicit false

namespace Regeneration

/-- What was asked for on the command line. -/
inductive Invocation where
  | command (command : Command)
  | version
  | help
  /-- The arguments make no sense. -/
  | misuse
  deriving DecidableEq, Repr

/-- The options a command knows. -/
structure Options where
  /-- Options with a value. -/
  valued : List String
  /-- Options without one. -/
  flags : List String := []

/-- The options that were given. -/
structure Given where
  values : List (String × String) := []
  flags : List String := []

/-- Where looking at options ended. -/
inductive Scanned where
  | given (given : Given)
  | help
  | misuse

/-- The name of an option and its value, if one is attached. -/
def splitOption (option : List Char) : String × Option String :=
  match option.splitOn '=' with
  | name :: value :: more =>
    (String.ofList name, some (String.ofList (['='].intercalate (value :: more))))
  | _ => (String.ofList option, none)

/-- The option that an argument names after two dashes. -/
def longOption? (argument : String) : Option (String × Option String) :=
  match argument.toList with
  | '-' :: '-' :: option => some (splitOption option)
  | _ => none

/-- Whether an argument starts with a dash and a given letter. -/
def isShort (letter : Char) (argument : String) : Bool :=
  match argument.toList with
  | '-' :: c :: _ => c == letter
  | _ => false

/-- Whether an argument can be no value. A dash alone can. -/
def looksLikeOption (argument : String) : Bool :=
  argument != "-" && argument.toList.head? == some '-'

/-- Takes the value of an option, unless it has one or the value is empty. -/
def Given.take? (given : Given) (name value : String) : Option Given :=
  if value.isEmpty || (given.values.lookup name).isSome then none
  else some { given with values := (name, value) :: given.values }

/-- Takes an option without a value, unless it was given before. -/
def Given.flag? (given : Given) (name : String) : Option Given :=
  if given.flags.contains name then none else some { given with flags := name :: given.flags }

/-- Looks at options one after another. -/
def scan (options : Options) : Given → List String → Scanned
  | given, [] => .given given
  | given, argument :: rest =>
    if argument = "--" then if rest.isEmpty then .given given else .misuse
    else
      match longOption? argument with
      | none => if isShort 'h' argument then .help else .misuse
      | some (name, attached) =>
        if options.valued.contains name then
          match attached with
          | some value =>
            match given.take? name value with
            | some given => scan options given rest
            | none => .misuse
          | none =>
            match rest with
            | [] => .misuse
            | value :: rest =>
              if looksLikeOption value then .misuse
              else
                match given.take? name value with
                | some given => scan options given rest
                | none => .misuse
        else if attached.isSome then .misuse
        else if options.flags.contains name then
          match given.flag? name with
          | some given => scan options given rest
          | none => .misuse
        else if name = "help" then .help
        else .misuse

/-- The inputs of a run, if the needed ones were given. -/
def Given.inputs? (given : Given) : Option Inputs := do
  some ⟨← given.values.lookup "skeleton", ← given.values.lookup "out",
    given.values.lookup "config"⟩

/-- What is asked for by the options of a command. -/
def Scanned.invocation (make : Given → Option Command) : Scanned → Invocation
  | .given found =>
    match make found with
    | some command => .command command
    | none => .misuse
  | .help => .help
  | .misuse => .misuse

namespace Invocation

/-- The commands that help can be asked for. -/
def topics : List String := ["run", "render", "stale", "help"]

/-- Asking for help, perhaps about one command. -/
def ofTopics : List String → Invocation
  | [] => .help
  | [topic] => if topics.contains topic then .help else .misuse
  | _ => .misuse

/-- What the arguments of the program ask for. -/
def ofArguments : List String → Invocation
  | [] => .misuse
  | "run" :: rest =>
    (scan ⟨["skeleton", "out", "config"], ["strict"]⟩ {} rest).invocation fun given =>
      given.inputs?.map fun inputs => .run inputs (given.flags.contains "strict")
  | "render" :: rest =>
    (scan ⟨["trace"], []⟩ {} rest).invocation fun given =>
      (given.values.lookup "trace").map .render
  | "stale" :: rest =>
    (scan ⟨["skeleton", "out", "config"], []⟩ {} rest).invocation fun given =>
      given.inputs?.map .stale
  | "help" :: rest => ofTopics rest
  | argument :: _ =>
    if argument = "--version" || isShort 'V' argument then .version
    else if argument = "--help" || isShort 'h' argument then .help
    else .misuse

/-- What the program prints for its version. -/
def versionText : String := "regen 0.1.0\n"

/-- What the program prints when help is asked for. -/
def helpText : String :=
  "Regenerate traced files while keeping user edits\n\n" ++
  "Usage: regen run --skeleton FILE --out DIRECTORY [--config FILE] [--strict]\n" ++
  "       regen render --trace FILE\n" ++
  "       regen stale --skeleton FILE --out DIRECTORY [--config FILE]\n"

end Invocation

/-- What the program leaves behind besides files. -/
structure Outcome where
  exit : Nat
  out : String
  err : String
  deriving DecidableEq, Repr

/-- What is printed for the result of a command. -/
def Outcome.ofResult : Except CommandError String → Outcome
  | .ok text => ⟨0, text, ""⟩
  | .error error => ⟨1, "", error.report⟩

/-- Does on a disk what was asked for. -/
def Invocation.perform (disk : Disk) : Invocation → Outcome × Disk
  | .command asked =>
    let (result, disk) := asked.perform disk
    (.ofResult result, disk)
  | .version => (⟨0, Invocation.versionText, ""⟩, disk)
  | .help => (⟨0, Invocation.helpText, ""⟩, disk)
  | .misuse => (⟨2, "", Invocation.helpText⟩, disk)

end Regeneration
