import AnnotationResolution.Value

/-!
# Metadata

What is known about the annotations of a declaration once its levels are put together.

* `annotations`: one entry for each annotation type, its member values merged.
* `repeated`: the applications of each repeatable annotation type, one by one.
* `stereotypes`: the annotations of these annotation types, of the types of those, and so on.

The queries treat the container of a repeatable annotation as present whenever the annotation is:
`annotationsFor` puts the applications into a container when it is asked for one.
-/

namespace AnnotationResolution

/-- Where a value comes from. -/
inductive ValueSource where
  /-- From the declaration itself. -/
  | declared
  /-- From one of the other levels. -/
  | inherited
  /-- From the default of the member. -/
  | default
  /-- From the declaration of an annotation type. -/
  | stereotype
deriving DecidableEq, Repr

/-- How long an annotation is kept. -/
inductive Retention where
  | source
  | classFile
  | runtime
deriving DecidableEq, Repr

instance : Inhabited Retention := ⟨.runtime⟩

def lastSegment (cs : List Char) : List Char := (cs.reverse.takeWhile (· ≠ '.')).reverse

/-- The policy named by a constant, in letters of either case and qualified or not. -/
def Retention.ofName? (name : String) : Option Retention :=
  match String.ofList ((lastSegment name.toList).map Char.toUpper) with
  | "SOURCE" => some .source
  | "CLASS" => some .classFile
  | "BINARY" => some .classFile
  | "RUNTIME" => some .runtime
  | _ => none

structure SourcedValue where
  value : Value
  source : ValueSource

structure AnnotationEntry where
  annotationType : String
  /-- Declared if an annotation of this type is on the declaration itself. -/
  source : ValueSource
  retention : Retention
  values : Members SourcedValue

structure RepeatedInstance where
  source : ValueSource
  values : Members SourcedValue

structure RepeatedEntry where
  annotationType : String
  container : String
  retention : Retention
  instances : List RepeatedInstance

structure StereotypeEntry where
  entry : AnnotationEntry
  /-- The annotation types that carry the stereotype. -/
  parents : List String

structure Metadata where
  annotations : Members AnnotationEntry := ∅
  repeated : Members RepeatedEntry := ∅
  stereotypes : Members StereotypeEntry := ∅

instance : Inhabited Metadata := ⟨{}⟩

def plainValues (values : Members SourcedValue) : Members Value := values.map SourcedValue.value

def AnnotationEntry.nested (entry : AnnotationEntry) : NestedAnnotation :=
  ⟨entry.annotationType, plainValues entry.values⟩

def RepeatedEntry.nested (repeated : RepeatedEntry) : List NestedAnnotation :=
  repeated.instances.map fun use => ⟨repeated.annotationType, plainValues use.values⟩

/-- The container that holds the given annotations. -/
def containerOf (container : String) (items : List NestedAnnotation) : NestedAnnotation :=
  ⟨container, (∅ : Members Value).insert "value" (.list ⟨.nested, items.map Value.nested⟩)⟩

namespace Metadata

variable (md : Metadata)

def isEmpty : Bool := md.annotations.isEmpty && md.repeated.isEmpty && md.stereotypes.isEmpty

def containerEntry? (container : String) : Option RepeatedEntry :=
  md.repeated.values.find? (·.container == container)

def isRepeatableContainer (annotationType : String) : Bool :=
  (md.containerEntry? annotationType).isSome

def hasAnnotation (annotationType : String) : Bool :=
  md.annotations.contains annotationType || md.repeated.contains annotationType
    || md.isRepeatableContainer annotationType

/-- Whether the annotation, or one that it contains, is on the declaration itself. -/
def hasDeclaredAnnotation (annotationType : String) : Bool :=
  match md.annotations.get? annotationType with
  | some entry => entry.source = .declared
  | none =>
    md.repeated.values.any fun repeated =>
      (repeated.annotationType == annotationType || repeated.container == annotationType) &&
        repeated.instances.any (·.source = .declared)

def hasStereotype (annotationType : String) : Bool :=
  md.hasAnnotation annotationType || md.stereotypes.contains annotationType

/-- The entry of an annotation, or else of a stereotype. -/
def entry? (annotationType : String) : Option AnnotationEntry :=
  match md.annotations.get? annotationType with
  | some entry => some entry
  | none => (md.stereotypes.get? annotationType).map StereotypeEntry.entry

def values? (annotationType : String) : Option (Members SourcedValue) :=
  (md.entry? annotationType).map AnnotationEntry.values

def sourcedValue? (annotationType member : String) : Option SourcedValue :=
  (md.values? annotationType).bind (·.get? member)

def value? (annotationType member : String) : Option Value :=
  (md.sourcedValue? annotationType member).map SourcedValue.value

def stringValue? (annotationType member : String) : Option String :=
  (md.value? annotationType member).bind Value.asString?

def valueSource? (annotationType member : String) : Option ValueSource :=
  (md.sourcedValue? annotationType member).map SourcedValue.source

def retention? (annotationType : String) : Option Retention :=
  match md.entry? annotationType with
  | some entry => some entry.retention
  | none => (md.repeated.get? annotationType).map RepeatedEntry.retention

/-- The annotations of a type, where a container may hold containers down to `depth`. -/
def annotationsWithin (depth : Nat) (annotationType : String) : List NestedAnnotation :=
  match md.repeated.get? annotationType with
  | some repeated => repeated.nested
  | none =>
    match md.containerEntry? annotationType with
    | some repeated =>
      match depth with
      | 0 => []
      | depth + 1 =>
        [containerOf annotationType (annotationsWithin depth repeated.annotationType)]
    | none => ((md.entry? annotationType).map AnnotationEntry.nested).toList

/-- All annotations of a type: every application of a repeatable one, the container of them if a
container is asked for, and otherwise the merged entry.  Containers of containers end after as many
steps as there are repeatable types, unless they go round in a circle. -/
def annotationsFor (annotationType : String) : List NestedAnnotation :=
  md.annotationsWithin md.repeated.size annotationType

/-- The names of all annotations, stereotypes not counted. -/
def annotationNames : List String := md.annotations.names ++ md.repeated.names

def declaredAnnotationNames : List String := md.annotationNames.filter md.hasDeclaredAnnotation

def stereotypeNames : List String := md.stereotypes.names

end Metadata

end AnnotationResolution
