import AnnotationResolution.Config
import AnnotationResolution.Model

/-!
# Type hierarchies

The types whose annotations count for a type, in the order in which they are looked at.

* `interfaceClosure` lists the interfaces reachable from a type, depth first.
* `typeAncestors` lists the interfaces of the type, then each superclass with the interfaces that
  only it brings in; nearest first, none of them twice.  Superclasses that the configuration ignores
  are left out, their own superclasses are not.
* `typeHierarchy` is the type with its ancestors, farthest first and the type itself last.
-/

namespace AnnotationResolution

/-- A model together with the configuration under which it is read. -/
structure Environment where
  model : Model
  config : Config

namespace Environment

variable (env : Environment)

/-- The interfaces named by a type that count, as far as they resolve. -/
def interfaces (id : DeclId) : List DeclId :=
  match env.model.typeInfo? id with
  | some info =>
    info.interfaces.filterMap fun ref => do
      let name ← ref.rawName?
      if env.config.ignoresInterface name then none else env.model.typeNamed? name
  | none => []

/-- Every interface reachable from a type on a way that avoids `seen`. -/
def interfaceClosure (id : DeclId) (seen : List DeclId) : List DeclId :=
  let next := fun id (_ : Unit) => (env.interfaces id).map (·, ())
  freshKeys (depthFirst env.model.ids next (next id ()) seen)

/-- Whether the configuration leaves a superclass out. -/
def ignoresSuperclass (id : DeclId) : Bool :=
  env.config.ignoresBase (((env.model.declaration? id).map Declaration.name).getD "")

/-- The ancestors found so far, with a superclass and the interfaces it brings in. -/
def addSuperclass (ty : DeclId) (ancestors : List DeclId) (superclass : DeclId) : List DeclId :=
  if env.ignoresSuperclass superclass then ancestors
  else
    let known := if superclass ∈ ancestors then ancestors else ancestors ++ [superclass]
    known ++ env.interfaceClosure superclass (ty :: known)

def typeAncestors (ty : DeclId) : List DeclId :=
  (env.model.superclasses ty).foldl (env.addSuperclass ty) (env.interfaceClosure ty [ty])

/-- An annotation type stands alone. -/
def typeHierarchy (ty : DeclId) : List DeclId :=
  if (env.model.declaration? ty).any Declaration.isAnnotationType then [ty]
  else (ty :: env.typeAncestors ty).reverse

end Environment

end AnnotationResolution
