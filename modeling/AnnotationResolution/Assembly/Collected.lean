import AnnotationResolution.Assembly.Occurrence
import AnnotationResolution.Validation

/-!
# Collecting occurrences

The occurrences are taken up one after the other.  Those of a repeatable annotation are kept side by
side; all others are merged by annotation type, where the first value of a member stays.  Every value
that is recorded on the way is remembered, in order.
-/

namespace AnnotationResolution

/-- The merged values of an annotation type, with the source of its first occurrence. -/
structure PendingEntry where
  source : ValueSource
  values : Members SourcedValue := ∅

structure PendingRepeated where
  container : String
  instances : List RepeatedInstance := []

structure Collected where
  annotations : Members PendingEntry := ∅
  repeated : Members PendingRepeated := ∅
  recorded : List Recorded := []

def addRecorded (source : ValueSource) (values : Members SourcedValue) (recorded : List Recorded) :
    Members SourcedValue :=
  recorded.foldl (fun values r => values.insert r.member ⟨r.value, source⟩) values

namespace Environment

variable (env : Environment)

def merge (collected : Collected) (o : Occurrence) : Collected :=
  let name := o.applied.annotationType
  let entry := (collected.annotations.get? name).getD { source := o.source }
  let recorded := env.recordAnnotation o.level entry.values.names o.applied
  { collected with
    annotations := collected.annotations.insert name
      { entry with values := addRecorded o.source entry.values recorded }
    recorded := collected.recorded ++ recorded }

def addRepeated (collected : Collected) (o : Occurrence) (container : String) : Collected :=
  let name := o.applied.annotationType
  let entry := (collected.repeated.get? name).getD { container }
  let recorded := env.recordAnnotation o.level [] o.applied
  { collected with
    repeated := collected.repeated.insert name
      { entry with instances := entry.instances ++ [⟨o.source, addRecorded o.source ∅ recorded⟩] }
    recorded := collected.recorded ++ recorded }

def collect (collected : Collected) (o : Occurrence) : Collected :=
  match o.container with
  | some container => env.addRepeated collected o container
  | none => env.merge collected o

def collectAll (occurrences : List Occurrence) : Collected := occurrences.foldl env.collect {}

end Environment

end AnnotationResolution
