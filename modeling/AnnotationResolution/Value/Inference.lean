import AnnotationResolution.Value
import AnnotationResolution.Decimal.Shortest

/-!
# Lists of one kind

`ValueList.infer` makes a list of one kind out of any values.  Lists among the values are replaced
by their items.  The kind of the list is that of the first item, unless

* a later item is an annotation or a class: then it is the kind of the last such item;
* the list starts with integers and a float follows: then it is float.

Items of another kind are converted where `Value.coerce?` can do it, and dropped where it cannot.
-/

namespace AnnotationResolution

/-- In a string a number is written out in full, without exponent and without `.0`. -/
def plainNumberStyle : Decimal.Style := ⟨.up, fun _ => true, false⟩

def plainFloatText (x : Float) : String :=
  (plainNumberStyle.text? x).getD (if x.isNaN then "NaN" else if x < 0 then "-inf" else "inf")

namespace Value

/-- A list stands for its items. -/
def items : Value → List Value
  | list inner => inner.items
  | value => [value]

/-- The value as an item of a list of the given kind. -/
def coerce? (component : Component) (value : Value) : Option Value :=
  if value.component = component then some value
  else
    match component, value with
    | .classRef, str s => some (classRef s)
    | .string, enumConstant _ constant => some (str constant)
    | .string, classRef name => some (str name)
    | .string, int n => some (str (toString n.toInt))
    | .string, float x => some (str (plainFloatText x))
    | .string, bool b => some (str (if b then "true" else "false"))
    | .string, char c => some (str (String.singleton c))
    | .float, int n => some (float n.toFloat)
    | _, _ => none

end Value

namespace Component

/-- The kind of a list that had the kind `current` before an item of kind `item`. -/
def widen (current item : Component) : Component :=
  if current = unknown ∨ item = nested ∨ item = classRef then item
  else if current = int ∧ item = float then float
  else current

def ofItems (values : List Value) : Component :=
  values.foldl (fun current value => widen current value.component) unknown

end Component

namespace ValueList

/-- The list of the items that have the given kind or can be converted to it. -/
def ofKind (component : Component) (values : List Value) : ValueList :=
  ⟨component, values.filterMap (Value.coerce? component)⟩

def infer (values : List Value) : ValueList :=
  let items := values.flatMap Value.items
  ofKind (Component.ofItems items) items

end ValueList

end AnnotationResolution
