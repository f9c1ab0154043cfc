import AnnotationResolution.Reading
import AnnotationResolution.Diagnostic

/-!
# Recording and validating values

A value is *recorded* when it is read for a member that has no value yet; the first value of a
member is the one that is kept.  A validator is shown every recorded value and may find fault with
it.  What it says is reported against the annotated declaration and changes nothing else.
-/

namespace AnnotationResolution

/-- A value that was recorded: the annotated declaration, the annotation, the member with the method
that declares it, and the value. -/
structure Recorded where
  origin : DeclId
  annotationType : String
  method : Option DeclId
  member : String
  value : Value

/-- The faults of a value: of the annotated declaration, the annotation type, the declaration of the
member, its name, and the value. -/
abbrev Validator := Declaration → String → Option Declaration → String → Value → List String

namespace Environment

variable (env : Environment)

/-- The value of a member, unless the member is `present` already or has no value. -/
def record? (present : List String) (origin : DeclId) (annotationType : String)
    (method : Option DeclId) (member : String) (e : Expr) : Option Recorded :=
  if member ∈ present then none
  else (env.readValue method (.expr e)).map fun value =>
    ⟨origin, annotationType, method, member, value⟩

/-- The values recorded for members of one annotation, in the order of the members. -/
def recordMembers (origin : DeclId) (annotationType : String) :
    List String → List (String × Expr) → List Recorded
  | _, [] => []
  | present, (member, e) :: rest =>
    match env.record? present origin annotationType
        (env.model.annotationMember? annotationType member) member e with
    | none => recordMembers origin annotationType present rest
    | some recorded => recorded :: recordMembers origin annotationType (member :: present) rest

/-- The values recorded for an annotation whose members `present` have values. -/
def recordAnnotation (origin : DeclId) (present : List String) (a : AnnotationInstance) :
    List Recorded :=
  env.recordMembers origin a.annotationType present a.members.entries

end Environment

/-- What a validator says about a recorded value, if its declaration is there. -/
def Recorded.faults (m : Model) (validate : Validator) (r : Recorded) : List String :=
  match m.declaration? r.origin with
  | none => []
  | some d => validate d r.annotationType (r.method.bind m.declaration?) r.member r.value

/-- The faults of a recorded value, reported against the annotated declaration. -/
def Recorded.diagnostics (m : Model) (validate : Validator) (r : Recorded) : List Diagnostic :=
  (r.faults m validate).map fun fault => ⟨r.origin, .error, fault⟩

/-! ## Members that must not be empty -/

namespace Validator

/-- Whether `spec`, which is cut at its first `#`, names a member of an annotation type. -/
def namesMember (annotationType member spec : String) : Bool :=
  let cs := spec.toList
  cs.contains '#' && cs.takeWhile (· ≠ '#') == annotationType.toList &&
    (cs.dropWhile (· ≠ '#')).drop 1 == member.toList

def isEmptyValue : Value → Bool
  | .str s => isBlankText s
  | .list items => items.items.isEmpty
  | _ => false

/-- Finds fault with blank strings and empty lists for the members given as `Type#member`. -/
def nonEmpty (specs : List String) : Validator := fun d annotationType _ member value =>
  if specs.any (namesMember annotationType member) && isEmptyValue value then
    ["@" ++ annotationType ++ "(" ++ member ++ ") on " ++ d.name ++ " must not be empty"]
  else []

end Validator

end AnnotationResolution
