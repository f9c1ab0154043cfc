import AnnotationResolution.CommandLine

/-!
# The program

Reads the arguments and the files they name, and prints what `CommandLine.execute` says.  Builds note
nothing of their own here.
-/

namespace AnnotationResolution.CommandLine

def usage : String :=
  "usage: --model FILE [--config FILE] [--decl PATTERN]... [--declared-only]\n" ++
  "       [--inherit-type-annotations] [--pretty] [--verbose]\n"

/-- The name of the setting in the environment that the log goes by. -/
def settingName : String := "RUST_LOG"

def printOutcome (outcome : Outcome) : IO UInt32 := do
  let out ← IO.getStdout
  out.putStr outcome.output
  out.flush
  (← IO.getStderr).putStr outcome.errors
  return outcome.exitCode.toUInt32

/-- The text of a file, or what is printed when it cannot be read. -/
def readText (what path : String) : IO (Except Outcome String) := do
  try
    return .ok (← IO.FS.readFile path)
  catch e =>
    return .error (failure ("Failed to read " ++ what ++ ": " ++ toString e))

def runFiles (modelPath : String) (arguments : Arguments) : IO Outcome := do
  let setting ← IO.getEnv settingName
  let execute := execute .byLevel .none setting
  match ← readText "declaration model" modelPath with
  | .error outcome => return outcome
  | .ok modelText =>
    match arguments.config with
    | none => return execute modelText none arguments
    | some path =>
      match ← readText "config" path with
      | .error outcome =>
        -- A model that cannot be loaded is reported before a configuration that cannot be read.
        match Model.parse modelText with
        | .error _ => return execute modelText none arguments
        | .ok model =>
          let log := Logger.byLevel.text (logSetting setting arguments) [loadedNote model modelPath]
          return { outcome with errors := log ++ outcome.errors }
      | .ok configText => return execute modelText (some configText) arguments

end AnnotationResolution.CommandLine

open AnnotationResolution.CommandLine in
def main (args : List String) : IO UInt32 := do
  match Arguments.parse? args with
  | some arguments =>
    match arguments.model with
    | some modelPath => printOutcome (← runFiles modelPath arguments)
    | none => printOutcome ⟨2, "", usage⟩
  | none => printOutcome ⟨2, "", usage⟩
