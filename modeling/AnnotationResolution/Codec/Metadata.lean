import AnnotationResolution.Codec.Declaration
import AnnotationResolution.Codec.Value
import AnnotationResolution.Diagnostic
import AnnotationResolution.Hierarchy.Levels
import AnnotationResolution.Metadata

/-!
# Metadata, build options and diagnostics in JSON

Every key of a metadata document must be there.
-/

namespace AnnotationResolution

namespace ValueSource

def name : ValueSource → String
  | declared => "declared"
  | inherited => "inherited"
  | default => "default"
  | stereotype => "stereotype"

def toJson (source : ValueSource) : Json := .str source.name

def ofJson? : Json.Access → Json → Option ValueSource :=
  Json.word? ([declared, inherited, default, stereotype].map fun source => (source.name, source))

end ValueSource

namespace Retention

def name : Retention → String
  | source => "source"
  | classFile => "class"
  | runtime => "runtime"

def toJson (retention : Retention) : Json := .str retention.name

def ofJson? : Json.Access → Json → Option Retention :=
  Json.word? ([source, classFile, runtime].map fun retention => (retention.name, retention))

end Retention

namespace SourcedValue

def toJson (v : SourcedValue) : Json :=
  .obj [("value", v.value.toJson), ("source", v.source.toJson)]

def ofJson? (access : Json.Access) (j : Json) : Option SourcedValue := do
  let fields := (← j.record? ["value", "source"] []).fields
  return {
    value := ← Json.required fields "value" (Value.ofJson? access)
    source := ← Json.required fields "source" (ValueSource.ofJson? access) }

def membersToJson (values : Members SourcedValue) : Json := values.toJson toJson

def membersOfJson? (access : Json.Access) (j : Json) : Option (Members SourcedValue) :=
  Members.ofJson? (ofJson? access) j

end SourcedValue

namespace AnnotationEntry

def toJson (entry : AnnotationEntry) : Json :=
  .obj [
    ("annotation_type", .str entry.annotationType),
    ("source", entry.source.toJson),
    ("retention", entry.retention.toJson),
    ("values", SourcedValue.membersToJson entry.values)]

def ofJson? (access : Json.Access) (j : Json) : Option AnnotationEntry := do
  let fields := (← j.record? ["annotation_type", "source", "retention", "values"] []).fields
  return {
    annotationType := ← Json.required fields "annotation_type" Json.str?
    source := ← Json.required fields "source" (ValueSource.ofJson? access)
    retention := ← Json.required fields "retention" (Retention.ofJson? access)
    values := ← Json.required fields "values" (SourcedValue.membersOfJson? access) }

end AnnotationEntry

namespace RepeatedInstance

def toJson (use : RepeatedInstance) : Json :=
  .obj [("source", use.source.toJson), ("values", SourcedValue.membersToJson use.values)]

def ofJson? (access : Json.Access) (j : Json) : Option RepeatedInstance := do
  let fields := (← j.record? ["source", "values"] []).fields
  return {
    source := ← Json.required fields "source" (ValueSource.ofJson? access)
    values := ← Json.required fields "values" (SourcedValue.membersOfJson? access) }

end RepeatedInstance

namespace RepeatedEntry

def toJson (entry : RepeatedEntry) : Json :=
  .obj [
    ("annotation_type", .str entry.annotationType),
    ("container", .str entry.container),
    ("retention", entry.retention.toJson),
    ("instances", Json.ofList RepeatedInstance.toJson entry.instances)]

def ofJson? (access : Json.Access) (j : Json) : Option RepeatedEntry := do
  let fields := (← j.record? ["annotation_type", "container", "retention", "instances"] []).fields
  return {
    annotationType := ← Json.required fields "annotation_type" Json.str?
    container := ← Json.required fields "container" Json.str?
    retention := ← Json.required fields "retention" (Retention.ofJson? access)
    instances :=
      ← Json.required fields "instances" (Json.list? (RepeatedInstance.ofJson? access)) }

end RepeatedEntry

namespace StereotypeEntry

def toJson (stereotype : StereotypeEntry) : Json :=
  .obj [
    ("entry", stereotype.entry.toJson),
    ("parents", Json.ofList Json.str stereotype.parents)]

def ofJson? (access : Json.Access) (j : Json) : Option StereotypeEntry := do
  let fields := (← j.record? ["entry", "parents"] []).fields
  return {
    entry := ← Json.required fields "entry" (AnnotationEntry.ofJson? access)
    parents := ← Json.required fields "parents" (Json.list? Json.str?) }

end StereotypeEntry

namespace Metadata

def toJson (md : Metadata) : Json :=
  .obj [
    ("annotations", md.annotations.toJson AnnotationEntry.toJson),
    ("repeated", md.repeated.toJson RepeatedEntry.toJson),
    ("stereotypes", md.stereotypes.toJson StereotypeEntry.toJson)]

def ofJson? (access : Json.Access) (j : Json) : Option Metadata := do
  let fields := (← j.record? ["annotations", "repeated", "stereotypes"] []).fields
  return {
    annotations :=
      ← Json.required fields "annotations" (Members.ofJson? (AnnotationEntry.ofJson? access))
    repeated := ← Json.required fields "repeated" (Members.ofJson? (RepeatedEntry.ofJson? access))
    stereotypes :=
      ← Json.required fields "stereotypes" (Members.ofJson? (StereotypeEntry.ofJson? access)) }

end Metadata

namespace BuildOptions

def ofJson? (j : Json) : Option BuildOptions := do
  let fields := (← j.record? [] ["inherit_type_annotations", "declared_only"]).fields
  return {
    inheritTypeAnnotations := ← Json.orElse fields "inherit_type_annotations" Json.bool? false
    declaredOnly := ← Json.orElse fields "declared_only" Json.bool? false }

end BuildOptions

namespace Severity

def name : Severity → String
  | error => "error"
  | warning => "warning"

end Severity

namespace Diagnostic

def toJson (d : Diagnostic) : Json :=
  .obj [
    ("declaration", d.declaration.toJson),
    ("severity", .str d.severity.name),
    ("message", .str d.message)]

end Diagnostic

end AnnotationResolution
