import AnnotationResolution.Config
import AnnotationResolution.Json.Reader

/-!
# Configurations in JSON

A record in which every key may be left out.  `Config.parse` reads and checks a configuration.
-/

namespace AnnotationResolution.Config

def toJson (config : Config) : Json :=
  .obj [
    ("root_type", .str config.rootType),
    ("ignored_base_types", Json.ofList Json.str config.ignoredBaseTypes),
    ("ignored_interfaces", Json.ofList Json.str config.ignoredInterfaces),
    ("excluded_annotations", Json.ofList Json.str config.excludedAnnotations),
    ("retention_annotation", .str config.retentionAnnotation),
    ("repeatable_annotation", .str config.repeatableAnnotation),
    ("inherited_annotation", .str config.inheritedAnnotation),
    ("stereotypes", .bool config.stereotypes),
    ("require_inherited_marker", .bool config.requireInheritedMarker),
    ("max_value_depth", .int config.maxValueDepth)]

def keys : List String :=
  ["root_type", "ignored_base_types", "ignored_interfaces", "excluded_annotations",
    "retention_annotation", "repeatable_annotation", "inherited_annotation", "stereotypes",
    "require_inherited_marker", "max_value_depth"]

def ofJson? (j : Json) : Option Config := do
  let fields := (← j.record? [] keys).fields
  let default : Config := {}
  return {
    rootType := ← Json.orElse fields "root_type" Json.str? default.rootType
    ignoredBaseTypes :=
      ← Json.orElse fields "ignored_base_types" (Json.list? Json.str?) default.ignoredBaseTypes
    ignoredInterfaces :=
      ← Json.orElse fields "ignored_interfaces" (Json.list? Json.str?) default.ignoredInterfaces
    excludedAnnotations :=
      ← Json.orElse fields "excluded_annotations" (Json.list? Json.str?)
        default.excludedAnnotations
    retentionAnnotation :=
      ← Json.orElse fields "retention_annotation" Json.str? default.retentionAnnotation
    repeatableAnnotation :=
      ← Json.orElse fields "repeatable_annotation" Json.str? default.repeatableAnnotation
    inheritedAnnotation :=
      ← Json.orElse fields "inherited_annotation" Json.str? default.inheritedAnnotation
    stereotypes := ← Json.orElse fields "stereotypes" Json.bool? default.stereotypes
    requireInheritedMarker :=
      ← Json.orElse fields "require_inherited_marker" Json.bool? default.requireInheritedMarker
    maxValueDepth := ← Json.orElse fields "max_value_depth" Json.nat? default.maxValueDepth }

def ofJson (j : Json) : Except ConfigError Config := do
  match ofJson? j with
  | some config =>
    config.check
    return config
  | none => throw .malformed

def parse (text : String) : Except ConfigError Config :=
  match Json.parse? text with
  | some j => ofJson j
  | none => throw .malformed

end AnnotationResolution.Config
