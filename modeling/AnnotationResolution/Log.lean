/-!
# The log

What a program notes about its own work, in lines of five levels.  A `Logger` decides by a setting
which lines are shown and how; the simplest setting is the name of a level, which shows the lines of
that level and of the more urgent ones.
-/

namespace AnnotationResolution

/-- From the most urgent to the most detailed one. -/
inductive LogLevel where
  | error
  | warn
  | info
  | debug
  | trace
deriving DecidableEq, Repr

namespace LogLevel

def all : List LogLevel := [error, warn, info, debug, trace]

def name : LogLevel → String
  | error => "error"
  | warn => "warn"
  | info => "info"
  | debug => "debug"
  | trace => "trace"

def rank : LogLevel → Nat
  | error => 1
  | warn => 2
  | info => 3
  | debug => 4
  | trace => 5

def ofName? (name : String) : Option LogLevel := all.find? fun level => level.name == name

theorem ofName?_name (level : LogLevel) : ofName? level.name = some level := by
  cases level <;> decide

end LogLevel

structure LogLine where
  level : LogLevel
  /-- The part of the program that notes it. -/
  source : String
  message : String
deriving DecidableEq, Repr

/-- What a setting shows of a log. -/
structure Logger where
  passes : String → LogLine → Bool
  /-- A line as it is shown; its place among those that are shown stands for the time. -/
  render : Nat → LogLine → String
  /-- What is said of a setting that is not understood. -/
  complaint : String → String
  passes_name (level : LogLevel) (line : LogLine) :
    passes level.name line = decide (line.level.rank ≤ level.rank)
  complaint_name (level : LogLevel) : complaint level.name = ""

namespace Logger

def text (logger : Logger) (setting : String) (lines : List LogLine) : String :=
  logger.complaint setting ++
    String.join ((lines.filter (logger.passes setting)).mapIdx logger.render)

/-- A logger that knows the names of levels only, and else shows what is most urgent. -/
def byLevel : Logger where
  passes setting line :=
    decide (line.level.rank ≤ ((LogLevel.ofName? setting).getD .error).rank)
  render _ line := "[" ++ line.level.name.toUpper ++ " " ++ line.source ++ "] " ++ line.message ++ "\n"
  complaint _ := ""
  passes_name level line := by rw [LogLevel.ofName?_name, Option.getD_some]
  complaint_name _ := rfl

end Logger

end AnnotationResolution
