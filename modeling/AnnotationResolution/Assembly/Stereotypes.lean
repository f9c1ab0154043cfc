import AnnotationResolution.DepthFirst
import AnnotationResolution.Metadata
import AnnotationResolution.Validation

/-!
# Stereotypes

The annotations on annotation types, on the types of those, and so on, excluded ones left out.
`metaUses` follows them depth first from given names; each annotation type is looked into once.
`pendingStereotypes` merges the uses by annotation type: the first value of a member stays, and every
type that carries the stereotype is one of its parents.
-/

namespace AnnotationResolution

/-- An annotation on the annotation type `via`, which is the declaration `carrier`. -/
structure MetaUse where
  via : String
  carrier : DeclId
  applied : AnnotationInstance

structure PendingStereotype where
  values : Members SourcedValue := ∅
  parents : List String := []

/-- What one use gives a stereotype. -/
def PendingStereotype.add (pending : PendingStereotype) (via : String) (recorded : List Recorded) :
    PendingStereotype where
  values := recorded.foldl
    (fun values r => values.insertIfNew r.member ⟨r.value, .stereotype⟩) pending.values
  parents := if via ∈ pending.parents then pending.parents else pending.parents ++ [via]

namespace Environment

variable (env : Environment)

/-- The annotations on an annotation type that are not excluded. -/
def metaUsesOn (annotationType : String) : List MetaUse :=
  match env.model.typeNamed? annotationType with
  | none => []
  | some ty =>
    ((env.model.annotations ty).filter fun a => !env.config.excludes a.annotationType).map fun a =>
      ⟨annotationType, ty, a⟩

/-- Every annotation met on the way from the given annotation types, in order. -/
def metaUses (names : List String) : List MetaUse :=
  let next := fun name (_ : Option MetaUse) =>
    (env.metaUsesOn name).map fun use => (use.applied.annotationType, some use)
  (depthFirst env.model.types.names next (names.map (·, none)) []).filterMap Visit.payload

/-- The values recorded for a use, all its members anew. -/
def recordUse (use : MetaUse) : List Recorded := env.recordAnnotation use.carrier [] use.applied

def addUse (pending : Members PendingStereotype) (use : MetaUse) : Members PendingStereotype :=
  pending.upsert use.applied.annotationType fun present =>
    (present.getD {}).add use.via (env.recordUse use)

def pendingStereotypes (uses : List MetaUse) : Members PendingStereotype :=
  uses.foldl env.addUse ∅

end Environment

end AnnotationResolution
