import AnnotationResolution.Assembly
import AnnotationResolution.Codec.Config
import AnnotationResolution.Codec.Metadata
import AnnotationResolution.Json.Sorted
import AnnotationResolution.Json.Writer
import AnnotationResolution.Log

/-!
# The command line

The program builds the metadata of the selected declarations of a model and prints one JSON object
with a field for each of them, named by its qualified name.

`Arguments.parse?` reads the arguments, `report` gives what is printed for a model and a
configuration, and `run` the same for their texts.  The exit code is 0, or 1 when a build reported an
error, or 2 when the model or the configuration cannot be loaded.

The program also keeps a log (`notes`), which a setting of the environment or the argument `verbose`
makes it show before anything else among the errors: that is `execute`.
-/

namespace AnnotationResolution.CommandLine

structure Arguments where
  model : Option String := none
  config : Option String := none
  /-- Patterns of the declarations to build; without any, all types are built. -/
  patterns : List String := []
  options : BuildOptions := {}
  pretty : Bool := false
  verbose : Bool := false
deriving Repr

/-- The options that take a value, each by its long and its short name. -/
inductive ValueOption where
  | model
  | config
  | pattern
deriving DecidableEq, Repr

namespace ValueOption

def long : ValueOption → String
  | model => "--model"
  | config => "--config"
  | pattern => "--decl"

def short : ValueOption → String
  | model => "-m"
  | config => "-c"
  | pattern => "-d"

/-- The value that is written into the same argument: `--long=value`, `-svalue` or `-s=value`. -/
def inlineValue? (option : ValueOption) (argument : String) : Option String :=
  match stripPrefix? (option.long ++ "=").toList argument.toList with
  | some value => some (String.ofList value)
  | none =>
    match stripPrefix? option.short.toList argument.toList with
    | some ('=' :: value) => some (String.ofList value)
    | some (c :: value) => some (String.ofList (c :: value))
    | _ => none

def find? (argument : String) : Option (ValueOption × Option String) :=
  [model, config, pattern].findSome? fun option =>
    if argument = option.long ∨ argument = option.short then some (option, none)
    else (option.inlineValue? argument).map fun value => (option, some value)

end ValueOption

namespace Arguments

def set (arguments : Arguments) (option : ValueOption) (value : String) : Arguments :=
  match option with
  | .model => { arguments with model := some value }
  | .config => { arguments with config := some value }
  | .pattern => { arguments with patterns := arguments.patterns ++ [value] }

def setFlag? (arguments : Arguments) (flag : String) : Option Arguments :=
  match flag with
  | "--declared-only" =>
    some { arguments with options := { arguments.options with declaredOnly := true } }
  | "--inherit-type-annotations" =>
    some { arguments with options := { arguments.options with inheritTypeAnnotations := true } }
  | "--pretty" => some { arguments with pretty := true }
  | "--verbose" => some { arguments with verbose := true }
  | "-v" => some { arguments with verbose := true }
  | _ => none

/-- The arguments after those that have been read; an unknown one, or a missing value, is not
accepted. -/
def parseFrom? (arguments : Arguments) : List String → Option Arguments
  | [] => some arguments
  | [argument] =>
    match ValueOption.find? argument with
    | some (option, some value) => some (arguments.set option value)
    | some (_, none) => none
    | none => arguments.setFlag? argument
  | argument :: value :: rest =>
    match ValueOption.find? argument with
    | some (option, some inline) => parseFrom? (arguments.set option inline) (value :: rest)
    | some (option, none) => parseFrom? (arguments.set option value) rest
    | none => (arguments.setFlag? argument).bind fun arguments => parseFrom? arguments (value :: rest)

def parse? (arguments : List String) : Option Arguments := parseFrom? {} arguments

end Arguments

/-! ## What is printed -/

structure Outcome where
  exitCode : Nat
  output : String
  errors : String
deriving Repr, DecidableEq

def failure (message : String) : Outcome := ⟨2, "", "[annolith] Error: " ++ message ++ "\n"⟩

/-- The declarations whose qualified name matches one of the patterns. -/
def selected (model : Model) (patterns : List String) : List DeclId :=
  if patterns.isEmpty then model.ids.filter model.isType
  else model.ids.filter fun id => patterns.any (nameMatches (model.qualifiedName id))

/-- What has been built so far. -/
structure Progress where
  cache : DefaultCache := {}
  fields : Members Json := ∅
  diagnostics : List Diagnostic := []

def buildNext (env : Environment) (options : BuildOptions) (progress : Progress) (id : DeclId) :
    Except ModelError Progress := do
  let result ← env.build none progress.cache options id
  return {
    cache := result.cache
    fields := progress.fields.insert (env.model.qualifiedName id) result.metadata.toJson
    diagnostics := progress.diagnostics ++ result.diagnostics }

def diagnosticLine (model : Model) (d : Diagnostic) : String :=
  d.severity.name ++ ": " ++ model.qualifiedName d.declaration ++ ": " ++ d.message ++ "\n"

def report (env : Environment) (arguments : Arguments) : Outcome :=
  match (selected env.model arguments.patterns).foldlM (buildNext env arguments.options) {} with
  | .error e => failure e.message
  | .ok progress =>
    let document := (Json.obj progress.fields.entries).sorted
    { exitCode := if progress.diagnostics.any Diagnostic.isError then 1 else 0
      output := (if arguments.pretty then document.pretty else document.compact) ++ "\n"
      errors := String.join (progress.diagnostics.map (diagnosticLine env.model)) }

/-- The model is loaded before the configuration; without a configuration the defaults hold. -/
def run (modelText : String) (configText : Option String) (arguments : Arguments) : Outcome :=
  match Model.parse modelText with
  | .error e => failure e.message
  | .ok model =>
    match configText.elim (pure {}) Config.parse with
    | .error e => failure e.message
    | .ok config => report ⟨model, config⟩ arguments

/-! ## What is noted -/

/-- A character of a quoted path. -/
def shownChar (c : Char) : List Char :=
  if c = '"' then ['\\', '"']
  else if c = '\\' then ['\\', '\\']
  else if c = '\n' then ['\\', 'n']
  else if c = '\r' then ['\\', 'r']
  else if c = '\t' then ['\\', 't']
  else if c = '\x00' then ['\\', '0']
  else if c.toNat < 0x20 ∨ (0x7f ≤ c.toNat ∧ c.toNat < 0xa0) then
    ['\\', 'u', '\x7b'] ++ Nat.toDigits 16 c.toNat ++ ['\x7d']
  else [c]

def shownPath (path : String) : String :=
  String.ofList ('"' :: path.toList.flatMap shownChar ++ ['"'])

def source : String := "annolith"

def loadedNote (model : Model) (path : String) : LogLine :=
  ⟨.info, source,
    "Loaded " ++ toString model.size ++ " declarations from " ++ shownPath path⟩

def buildingNote (model : Model) (id : DeclId) : LogLine :=
  ⟨.debug, source, "Building metadata for " ++ model.qualifiedName id⟩

/-- What the builds note themselves.  These are details, and never as urgent as a warning. -/
structure BuildNotes where
  lines : Environment → DefaultCache → BuildOptions → DeclId → List LogLine
  detailed (env : Environment) (cache : DefaultCache) (options : BuildOptions) (id : DeclId) :
    ∀ line ∈ lines env cache options id, line.level = .debug ∨ line.level = .trace

def BuildNotes.none : BuildNotes where
  lines _ _ _ _ := []
  detailed _ _ _ _ _ h := by cases h

def notesFrom (buildNotes : BuildNotes) (env : Environment) (options : BuildOptions) :
    Progress → List DeclId → List LogLine
  | _, [] => []
  | progress, id :: rest =>
    buildingNote env.model id :: buildNotes.lines env progress.cache options id ++
      match buildNext env options progress id with
      | .error _ => []
      | .ok next => notesFrom buildNotes env options next rest

def notes (buildNotes : BuildNotes) (modelText : String) (configText : Option String)
    (arguments : Arguments) : List LogLine :=
  match Model.parse modelText with
  | .error _ => []
  | .ok model =>
    loadedNote model (arguments.model.getD "") ::
      match configText.elim (pure {}) Config.parse with
      | .error _ => []
      | .ok config =>
        notesFrom buildNotes ⟨model, config⟩ arguments.options {}
          (selected model arguments.patterns)

/-- The setting of the environment counts before the argument. -/
def logSetting (setting : Option String) (arguments : Arguments) : String :=
  setting.getD (if arguments.verbose then LogLevel.debug else LogLevel.warn).name

/-- The outcome of a run with its log. -/
def execute (logger : Logger) (buildNotes : BuildNotes) (setting : Option String)
    (modelText : String) (configText : Option String) (arguments : Arguments) : Outcome :=
  let outcome := run modelText configText arguments
  let log := logger.text (logSetting setting arguments)
    (notes buildNotes modelText configText arguments)
  { outcome with errors := log ++ outcome.errors }

end AnnotationResolution.CommandLine
