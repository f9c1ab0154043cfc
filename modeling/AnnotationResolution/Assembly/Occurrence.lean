import AnnotationResolution.Assembly.Markers
import AnnotationResolution.Hierarchy.Levels

/-!
# Occurrences of annotations

The annotations that count for a declaration, in the order in which they are put together: level by
level from the declaration outwards, on each level as written.  A pure container of repeatable
annotations counts as the annotations it holds.
-/

namespace AnnotationResolution

/-- One annotation on one level; if it is one application of a repeatable annotation, with the
container of these applications. -/
structure Occurrence where
  level : DeclId
  source : ValueSource
  applied : AnnotationInstance
  container : Option String

/-- A declaration whose metadata is put together. -/
structure BuildTarget where
  id : DeclId
  declaration : Declaration

/-- The annotation that a host value is. -/
def HostValue.nested? : HostValue → Option AnnotationInstance
  | .nested a => some a
  | _ => none

/-- The annotation that an expression is, however it is spelled. -/
def Expr.nested? : Expr → Option AnnotationInstance
  | .nested a => some a
  | .value resolved => resolved.nested?
  | _ => none

/-- The annotations that an expression is made of, if it is an annotation or a list of nothing
else. -/
def Expr.annotations? : Expr → Option (List AnnotationInstance)
  | .list items => items.mapM Expr.nested?
  | .value (.array items) => items.mapM HostValue.nested?
  | e => e.nested?.map ([·])

namespace Environment

variable (env : Environment)

/-- Whether the member `value` of an annotation type may hold several values; it may if nothing is
known about it. -/
def holdsArray (annotationType : String) : Bool :=
  match (env.model.annotationMember? annotationType "value").bind env.model.methodInfo? with
  | some info => info.returnType.isArray
  | none => true

/-- The annotations in a pure container: it has no member but `value`, and that holds at least one
annotation and only such whose type names this container as its own. -/
def containerItems? (a : AnnotationInstance) : Option (List AnnotationInstance) := do
  if a.members.size ≠ 1 then none
  else
    let items ← (← a.members.get? "value").annotations?
    if env.holdsArray a.annotationType && !items.isEmpty &&
        items.all fun item => env.repeatableContainer? item.annotationType == some a.annotationType
    then some items
    else none

/-- What one annotation counts as, each with the container if it is repeatable. -/
def applications (a : AnnotationInstance) : List (AnnotationInstance × Option String) :=
  match env.containerItems? a with
  | some items => items.map (·, some a.annotationType)
  | none => [(a, env.repeatableContainer? a.annotationType)]

/-- Excluded annotations count for annotation types only. -/
def passesExclusion (target : BuildTarget) (a : AnnotationInstance) : Bool :=
  target.declaration.isAnnotationType || !env.config.excludes a.annotationType

/-- Whether a level is an ancestor of the target: a type that is neither the target nor the type
that declares it. -/
def isAncestorType (target : BuildTarget) (level : DeclId) : Bool :=
  level ≠ target.id && some level ≠ target.declaration.declaringType && env.model.isType level

def passesInheritance (target : BuildTarget) (level : DeclId) (a : AnnotationInstance) : Bool :=
  !(env.isAncestorType target level && env.config.requireInheritedMarker)
    || env.isInherited a.annotationType

/-- The annotations of a level that count. -/
def keptAnnotations (target : BuildTarget) (level : DeclId) : List AnnotationInstance :=
  (env.model.annotations level).filter fun a =>
    env.passesExclusion target a && env.passesInheritance target level a

def sourceOf (target : BuildTarget) (level : DeclId) : ValueSource :=
  if level = target.id then .declared else .inherited

def occurrencesOn (target : BuildTarget) (level : DeclId) : List Occurrence :=
  (env.keptAnnotations target level).flatMap fun a =>
    (env.applications a).map fun (item, container) =>
      ⟨level, sourceOf target level, item, container⟩

/-- The occurrences on all levels, the nearest level first. -/
def occurrences (options : BuildOptions) (target : BuildTarget) : List Occurrence :=
  (env.levels options target.id).reverse.flatMap (env.occurrencesOn target)

end Environment

end AnnotationResolution
