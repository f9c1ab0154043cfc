import AnnotationResolution.Codec.Expr
import AnnotationResolution.Value

/-!
# Canonical values in JSON

A value has the same form as a host value.  A class is written by its name, a list with the kind of
its items.
-/

namespace AnnotationResolution

namespace Component

def name : Component → String
  | string => "string"
  | int => "int"
  | float => "float"
  | bool => "bool"
  | char => "char"
  | enumConstant => "enum"
  | classRef => "class"
  | nested => "annotation"
  | unknown => "unknown"

def ofJson? : Json.Access → Json → Option Component :=
  Json.word? ([string, int, float, bool, char, enumConstant, classRef, nested, unknown].map
    fun component => (component.name, component))

end Component

/-! ## Writing -/

mutual

def Value.toJson : Value → Json
  | .str s => .tagged "type" "str" (.str s)
  | .int n => .tagged "type" "int" (.int n.toInt)
  | .float x => .tagged "type" "float" (.float x)
  | .bool b => .tagged "type" "bool" (.bool b)
  | .char c => .tagged "type" "char" (.str (String.singleton c))
  | .enumConstant typeName constant =>
    .tagged "type" "enum" (.obj [("type_name", .str typeName), ("constant", .str constant)])
  | .classRef name => .tagged "type" "class" (.obj [("name", .str name)])
  | .nested a => .tagged "type" "annotation" a.toJson
  | .list items => .tagged "type" "list" items.toJson

def NestedAnnotation.toJson : NestedAnnotation → Json
  | ⟨annotationType, ⟨entries⟩⟩ =>
    .obj [("annotation_type", .str annotationType), ("values", .arr (Value.entriesToJson entries))]

def ValueList.toJson : ValueList → Json
  | ⟨component, items⟩ =>
    .obj [("component", .str component.name), ("items", .arr (Value.listToJson items))]

def Value.listToJson : List Value → List Json
  | [] => []
  | value :: rest => value.toJson :: Value.listToJson rest

def Value.entriesToJson : List (String × Value) → List Json
  | [] => []
  | (name, value) :: rest =>
    .obj [("name", .str name), ("value", value.toJson)] :: Value.entriesToJson rest

end

/-! ## Reading -/

def Value.forms : List String :=
  ["str", "int", "float", "bool", "char", "enum", "class", "annotation", "list"]

mutual

def Value.ofJson? (access : Json.Access) (j : Json) : Option Value :=
  match j.tagged? "type" "value" Value.forms access with
  | some ⟨"str", _, some (.str s), _⟩ => return .str s
  | some ⟨"int", _, some content, _⟩ => return .int (← content.int64?)
  | some ⟨"float", _, some content, _⟩ => return .float (← content.float?)
  | some ⟨"bool", _, some (.bool b), _⟩ => return .bool b
  | some ⟨"char", _, some content, _⟩ => return .char (← content.char?)
  | some ⟨"enum", _, some content, _⟩ => do
    let parts := (← content.record? ["type_name", "constant"] []).fields
    return .enumConstant (← Json.required parts "type_name" Json.str?)
      (← Json.required parts "constant" Json.str?)
  | some ⟨"class", _, some content, _⟩ => do
    let parts := (← content.record? ["name"] []).fields
    return .classRef (← Json.required parts "name" Json.str?)
  | some ⟨"annotation", access, some content, _h⟩ =>
    return .nested (← NestedAnnotation.ofJson? access content)
  | some ⟨"list", access, some content, _h⟩ => return .list (← ValueList.ofJson? access content)
  | _ => none
termination_by sizeOf j
decreasing_by
  · exact _h rfl
  · exact _h rfl

/-- Values that are not written are none. -/
def NestedAnnotation.ofJson? (access : Json.Access) (j : Json) : Option NestedAnnotation :=
  match j.record? ["annotation_type"] ["values"] with
  | none => none
  | some record => do
    let annotationType ← Json.required record.fields "annotation_type" Json.str?
    match _h : Json.field? record.fields "values" with
    | none => return { annotationType }
    | some (.arr items) =>
      return { annotationType, values := Members.ofList (← Value.entriesOfJson? access items) }
    | some _ => none
termination_by sizeOf j
decreasing_by exact Nat.lt_trans (Json.sizeOf_items_lt _) (record.smaller _h)

def ValueList.ofJson? (access : Json.Access) (j : Json) : Option ValueList :=
  match j.record? ["component", "items"] [] with
  | none => none
  | some record => do
    let component ← Json.required record.fields "component" (Component.ofJson? access)
    match _h : Json.field? record.fields "items" with
    | some (.arr items) => return { component, items := ← Value.listOfJson? access items }
    | _ => none
termination_by sizeOf j
decreasing_by exact Nat.lt_trans (Json.sizeOf_items_lt _) (record.smaller _h)

def Value.listOfJson? (access : Json.Access) : List Json → Option (List Value)
  | [] => some []
  | item :: rest => return (← Value.ofJson? access item) :: (← Value.listOfJson? access rest)
termination_by items => sizeOf items

def Value.entriesOfJson? (access : Json.Access) : List Json → Option (List (String × Value))
  | [] => some []
  | item :: rest =>
    match item.record? ["name", "value"] [] with
    | none => none
    | some record => do
      let name ← Json.required record.fields "name" Json.str?
      match _h : Json.field? record.fields "value" with
      | none => none
      | some value =>
        return (name, ← Value.ofJson? access value) :: (← Value.entriesOfJson? access rest)
termination_by items => sizeOf items
decreasing_by
  · exact Nat.lt_trans (record.smaller _h) (by rw [List.cons.sizeOf_spec]; omega)
  · rw [List.cons.sizeOf_spec]
    omega

end

end AnnotationResolution
