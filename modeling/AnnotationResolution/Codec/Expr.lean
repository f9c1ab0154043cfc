import AnnotationResolution.Codec.TypeRef
import AnnotationResolution.Expr

/-!
# Raw annotation values in JSON

Expressions, host values and literals are objects with two fields: one names the form, `value` holds
what belongs to it.  An annotation is a record.
-/

namespace AnnotationResolution

/-- An object of a form and what belongs to it. -/
def Json.tagged (tag form : String) (value : Json) : Json :=
  .obj [(tag, .str form), ("value", value)]

namespace Literal

def toJson : Literal → Json
  | str s => .tagged "type" "str" (.str s)
  | int n => .tagged "type" "int" (.int n.toInt)
  | float x => .tagged "type" "float" (.float x)
  | bool b => .tagged "type" "bool" (.bool b)
  | char c => .tagged "type" "char" (.str (String.singleton c))
  | null => .obj [("type", .str "null")]

def forms : List String := ["str", "int", "float", "bool", "char", "null"]

/-- Nothing but a null may stand beside the form `null`. -/
def ofJson? (access : Json.Access) (j : Json) : Option Literal := do
  match ← j.tagged? "type" "value" forms access with
  | ⟨"str", _, some content, _⟩ => return str (← content.str?)
  | ⟨"int", _, some content, _⟩ => return int (← content.int64?)
  | ⟨"float", _, some content, _⟩ => return float (← content.float?)
  | ⟨"bool", _, some content, _⟩ => return bool (← content.bool?)
  | ⟨"char", _, some content, _⟩ => return char (← content.char?)
  | ⟨"null", _, none, _⟩ => some null
  | ⟨"null", _, some .null, _⟩ => some null
  | _ => none

end Literal

/-! ## Writing -/

mutual

def Expr.toJson : Expr → Json
  | .literal constant => .tagged "expr" "literal" constant.toJson
  | .nested a => .tagged "expr" "annotation" a.toJson
  | .qualified owner member =>
    .tagged "expr" "qualified" (.obj [("owner", .str owner), ("member", .str member)])
  | .typeLiteral ty => .tagged "expr" "type_literal" ty.toJson
  | .list items => .tagged "expr" "list" (.arr (Expr.listToJson items))
  | .variableRef name none =>
    .tagged "expr" "variable" (.obj [("name", .str name), ("initializer", .null)])
  | .variableRef name (some initializer) =>
    .tagged "expr" "variable" (.obj [("name", .str name), ("initializer", initializer.toJson)])
  | .value resolved => .tagged "expr" "value" resolved.toJson
  | .unsupported source => .tagged "expr" "unsupported" (.str source)

def HostValue.toJson : HostValue → Json
  | .str s => .tagged "type" "str" (.str s)
  | .int n => .tagged "type" "int" (.int n.toInt)
  | .float x => .tagged "type" "float" (.float x)
  | .bool b => .tagged "type" "bool" (.bool b)
  | .char c => .tagged "type" "char" (.str (String.singleton c))
  | .classOf ty => .tagged "type" "class" ty.toJson
  | .enumConstant typeName constant =>
    .tagged "type" "enum" (.obj [("type_name", .str typeName), ("constant", .str constant)])
  | .nested a => .tagged "type" "annotation" a.toJson
  | .array items => .tagged "type" "array" (.arr (HostValue.listToJson items))

def AnnotationInstance.toJson : AnnotationInstance → Json
  | ⟨annotationType, ⟨entries⟩⟩ =>
    .obj [("annotation_type", .str annotationType), ("members", .arr (Expr.entriesToJson entries))]

def Expr.listToJson : List Expr → List Json
  | [] => []
  | e :: rest => e.toJson :: Expr.listToJson rest

def HostValue.listToJson : List HostValue → List Json
  | [] => []
  | h :: rest => h.toJson :: HostValue.listToJson rest

def Expr.entriesToJson : List (String × Expr) → List Json
  | [] => []
  | (name, e) :: rest =>
    .obj [("name", .str name), ("value", e.toJson)] :: Expr.entriesToJson rest

end

/-! ## Reading -/

def Expr.forms : List String :=
  ["literal", "annotation", "qualified", "type_literal", "list", "variable", "value", "unsupported"]

def HostValue.forms : List String :=
  ["str", "int", "float", "bool", "char", "class", "enum", "annotation", "array"]

mutual

/-- The initializer of a variable may be missing or null. -/
def Expr.ofJson? (access : Json.Access) (j : Json) : Option Expr :=
  match j.tagged? "expr" "value" Expr.forms access with
  | some ⟨"literal", access, some content, _⟩ => return .literal (← Literal.ofJson? access content)
  | some ⟨"annotation", access, some content, _h⟩ =>
    return .nested (← AnnotationInstance.ofJson? access content)
  | some ⟨"qualified", _, some content, _⟩ => do
    let parts := (← content.record? ["owner", "member"] []).fields
    return .qualified (← Json.required parts "owner" Json.str?)
      (← Json.required parts "member" Json.str?)
  | some ⟨"type_literal", access, some content, _⟩ =>
    return .typeLiteral (← TypeRef.ofJson? access content)
  | some ⟨"list", access, some (.arr items), _h⟩ => return .list (← Expr.listOfJson? access items)
  | some ⟨"variable", access, some content, _h⟩ =>
    match content.record? ["name"] ["initializer"] with
    | none => none
    | some record => do
      let name ← Json.required record.fields "name" Json.str?
      match _hf : Json.field? record.fields "initializer" with
      | none => return .variableRef name none
      | some .null => return .variableRef name none
      | some initializer => return .variableRef name (some (← Expr.ofJson? access initializer))
  | some ⟨"value", access, some content, _h⟩ => return .value (← HostValue.ofJson? access content)
  | some ⟨"unsupported", _, some (.str source), _⟩ => return .unsupported source
  | _ => none
termination_by sizeOf j
decreasing_by
  · exact _h rfl
  · exact Nat.lt_trans (Json.sizeOf_items_lt _) (_h rfl)
  · exact Nat.lt_trans (record.smaller _hf) (_h rfl)
  · exact _h rfl

def HostValue.ofJson? (access : Json.Access) (j : Json) : Option HostValue :=
  match j.tagged? "type" "value" HostValue.forms access with
  | some ⟨"str", _, some (.str s), _⟩ => return .str s
  | some ⟨"int", _, some content, _⟩ => return .int (← content.int64?)
  | some ⟨"float", _, some content, _⟩ => return .float (← content.float?)
  | some ⟨"bool", _, some (.bool b), _⟩ => return .bool b
  | some ⟨"char", _, some content, _⟩ => return .char (← content.char?)
  | some ⟨"class", access, some content, _⟩ => return .classOf (← TypeRef.ofJson? access content)
  | some ⟨"enum", _, some content, _⟩ => do
    let parts := (← content.record? ["type_name", "constant"] []).fields
    return .enumConstant (← Json.required parts "type_name" Json.str?)
      (← Json.required parts "constant" Json.str?)
  | some ⟨"annotation", access, some content, _h⟩ =>
    return .nested (← AnnotationInstance.ofJson? access content)
  | some ⟨"array", access, some (.arr items), _h⟩ =>
    return .array (← HostValue.listOfJson? access items)
  | _ => none
termination_by sizeOf j
decreasing_by
  · exact _h rfl
  · exact Nat.lt_trans (Json.sizeOf_items_lt _) (_h rfl)

/-- Members that are not written are none. -/
def AnnotationInstance.ofJson? (access : Json.Access) (j : Json) : Option AnnotationInstance :=
  match j.record? ["annotation_type"] ["members"] with
  | none => none
  | some record => do
    let annotationType ← Json.required record.fields "annotation_type" Json.str?
    match _h : Json.field? record.fields "members" with
    | none => return { annotationType }
    | some (.arr items) =>
      return { annotationType, members := Members.ofList (← Expr.entriesOfJson? access items) }
    | some _ => none
termination_by sizeOf j
decreasing_by exact Nat.lt_trans (Json.sizeOf_items_lt _) (record.smaller _h)

def Expr.listOfJson? (access : Json.Access) : List Json → Option (List Expr)
  | [] => some []
  | item :: rest => return (← Expr.ofJson? access item) :: (← Expr.listOfJson? access rest)
termination_by items => sizeOf items

def HostValue.listOfJson? (access : Json.Access) : List Json → Option (List HostValue)
  | [] => some []
  | item :: rest => return (← HostValue.ofJson? access item) :: (← HostValue.listOfJson? access rest)
termination_by items => sizeOf items

def Expr.entriesOfJson? (access : Json.Access) : List Json → Option (List (String × Expr))
  | [] => some []
  | item :: rest =>
    match item.record? ["name", "value"] [] with
    | none => none
    | some record => do
      let name ← Json.required record.fields "name" Json.str?
      match _h : Json.field? record.fields "value" with
      | none => none
      | some value =>
        return (name, ← Expr.ofJson? access value) :: (← Expr.entriesOfJson? access rest)
termination_by items => sizeOf items
decreasing_by
  · exact Nat.lt_trans (record.smaller _h) (by rw [List.cons.sizeOf_spec]; omega)
  · rw [List.cons.sizeOf_spec]
    omega

end

end AnnotationResolution
