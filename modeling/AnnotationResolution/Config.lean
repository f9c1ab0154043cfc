import AnnotationResolution.Text.NamePattern

/-!
# Configuration

What a build treats specially: the root of all types, base classes and interfaces that take no part
in a hierarchy, annotations that are left out, the annotations that mark others as retained,
repeatable or inherited, and how deep a value may nest.

`Config.check` accepts a configuration or names the first thing that is wrong with it.
-/

namespace AnnotationResolution

structure Config where
  rootType : String := "java.lang.Object"
  /-- Superclasses that are left out of every hierarchy. -/
  ignoredBaseTypes : List String := ["groovy.lang.Script", "groovy.lang.GroovyObjectSupport"]
  ignoredInterfaces : List String := ["groovy.lang.GroovyObject"]
  /-- Patterns of annotations that are left out of all metadata but that of annotation types. -/
  excludedAnnotations : List String := ["java.lang.annotation.*"]
  retentionAnnotation : String := "java.lang.annotation.Retention"
  repeatableAnnotation : String := "java.lang.annotation.Repeatable"
  inheritedAnnotation : String := "java.lang.annotation.Inherited"
  /-- Whether the annotations of annotation types are collected. -/
  stereotypes : Bool := true
  /-- Whether a type inherits only annotations that are marked as inherited. -/
  requireInheritedMarker : Bool := false
  maxValueDepth : Nat := 32
deriving Repr, DecidableEq

instance : Inhabited Config := ⟨{}⟩

inductive ConfigError where
  | malformed
  | zeroDepth
  /-- A key whose value must not be blank. -/
  | blank (key : String)
  | unsupportedPattern (pattern : String)
deriving Repr, DecidableEq

namespace ConfigError

def reason : ConfigError → String
  | malformed => ""
  | zeroDepth => "max_value_depth must be at least 1"
  | blank key => key ++ " must not be empty"
  | unsupportedPattern pattern => "unsupported annotation pattern '" ++ pattern ++ "'"

def message : ConfigError → String
  | malformed => "Failed to parse config"
  | error => "Invalid config: " ++ error.reason

end ConfigError

namespace Config

/-- The keys whose values must not be blank, with these values, in the order of checking. -/
def requiredNames (config : Config) : List (String × String) :=
  [("root_type", config.rootType), ("retention_annotation", config.retentionAnnotation),
    ("repeatable_annotation", config.repeatableAnnotation),
    ("inherited_annotation", config.inheritedAnnotation)]

def isUnsupportedPattern (pattern : String) : Bool :=
  2 < pattern.toList.count '*' || isBlankText pattern

def check (config : Config) : Except ConfigError Unit :=
  if config.maxValueDepth = 0 then throw .zeroDepth
  else
    match config.requiredNames.find? fun entry => isBlankText entry.2 with
    | some entry => throw (.blank entry.1)
    | none =>
      match config.excludedAnnotations.find? isUnsupportedPattern with
      | some pattern => throw (.unsupportedPattern pattern)
      | none => pure ()

def excludes (config : Config) (annotationType : String) : Bool :=
  config.excludedAnnotations.any (nameMatches annotationType)

def ignoresBase (config : Config) (typeName : String) : Bool :=
  typeName == config.rootType || config.ignoredBaseTypes.contains typeName

def ignoresInterface (config : Config) (typeName : String) : Bool :=
  config.ignoredInterfaces.contains typeName

end Config

end AnnotationResolution
