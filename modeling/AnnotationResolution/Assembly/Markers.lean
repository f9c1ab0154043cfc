import AnnotationResolution.Metadata
import AnnotationResolution.Reading

/-!
# Marker annotations

What an annotation type says about itself by the annotations it carries: how long it is kept,
whether it is inherited, and which container holds it when it is repeated.
-/

namespace AnnotationResolution.Environment

variable (env : Environment)

/-- The first annotation of the type `marker` on an annotation type. -/
def marker? (annotationType marker : String) : Option AnnotationInstance :=
  (env.model.typeNamed? annotationType).bind fun ty => (env.model.annotationsOfType ty marker).head?

def isInherited (annotationType : String) : Bool :=
  (env.marker? annotationType env.config.inheritedAnnotation).isSome

/-- The container that the repeatable marker of an annotation type names. -/
def repeatableContainer? (annotationType : String) : Option String := do
  let marker ← env.marker? annotationType env.config.repeatableAnnotation
  match ← env.readValue none (.expr (← marker.members.get? "value")) with
  | .classRef name => some name
  | .str name => some name
  | _ => none

/-- The policy that an expression names.  A constant need not resolve: its name says it all. -/
def retentionOf? (e : Expr) : Option Retention :=
  match e with
  | .qualified _ member => Retention.ofName? member
  | _ => ((env.readValue none (.expr e)).bind Value.asString?).bind Retention.ofName?

/-- The policy of an annotation type, runtime unless its marker names another. -/
def retention (annotationType : String) : Retention :=
  (do
    let marker ← env.marker? annotationType env.config.retentionAnnotation
    env.retentionOf? (← marker.members.get? "value")).getD .runtime

end AnnotationResolution.Environment
