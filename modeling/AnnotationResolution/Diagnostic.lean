import AnnotationResolution.Declaration

/-!
# Diagnostics

Messages about a declaration.  Nothing that is reported here stops a build.
-/

namespace AnnotationResolution

inductive Severity where
  | error
  | warning
deriving DecidableEq, Repr

structure Diagnostic where
  declaration : DeclId
  severity : Severity
  message : String
deriving DecidableEq, Repr

namespace Diagnostic

def isError (d : Diagnostic) : Bool := d.severity = .error

def isWarning (d : Diagnostic) : Bool := d.severity = .warning

/-- The line of a log that reports a diagnostic. -/
def logLine (d : Diagnostic) : String :=
  (match d.severity with
    | .error => "ERROR "
    | .warning => "WARN ") ++ d.declaration.display ++ ": " ++ d.message

end Diagnostic

end AnnotationResolution
