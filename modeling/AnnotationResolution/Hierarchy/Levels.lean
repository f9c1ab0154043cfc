import AnnotationResolution.Hierarchy.Overrides

/-!
# Levels of a declaration

The declarations whose annotations count for a declaration, farthest first and the declaration
itself last: for a type its hierarchy, for a method the methods it overrides, for a parameter the
parameters at its place in the overridden methods.
-/

namespace AnnotationResolution

structure BuildOptions where
  /-- Methods also have the annotations of their declaring type and its ancestors. -/
  inheritTypeAnnotations : Bool := false
  /-- Ancestors do not count. -/
  declaredOnly : Bool := false
deriving Repr, DecidableEq

instance : Inhabited BuildOptions := ⟨{}⟩

namespace Environment

variable (env : Environment)

/-- The levels of a declaration without those of its declaring type. -/
def ownLevels (id : DeclId) : List DeclId :=
  match env.model.declaration? id with
  | none => []
  | some d =>
    match d.element with
    | .type _ => env.typeHierarchy id
    | .method info => (if info.overrides then env.overriddenMethods id else []) ++ [id]
    | .parameter info =>
      let overrides := (env.model.methodInfo? info.method).any MethodInfo.overrides
      let overridden := if overrides then env.overriddenMethods info.method else []
      overridden.filterMap (env.model.parameterAt? · info.index) ++ [id]
    | .field _ | .property _ | .package => [id]

/-- The levels of the type that declares a method. -/
def inheritedTypeLevels (id : DeclId) : List DeclId :=
  match env.model.declaration? id with
  | some { declaringType := some owner, element := .method _, .. } => env.ownLevels owner
  | _ => []

def levels (options : BuildOptions) (id : DeclId) : List DeclId :=
  if options.declaredOnly then ((env.model.declaration? id).map fun _ => id).toList
  else
    (if options.inheritTypeAnnotations then env.inheritedTypeLevels id else []) ++ env.ownLevels id

end Environment

end AnnotationResolution
