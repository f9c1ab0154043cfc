import AnnotationResolution.Json.Tag
import AnnotationResolution.TypeRef

/-!
# Type references and members in JSON

A type reference has its form as the tag `type`, and its parts lie beside the tag.  Members are a list
of records with a `name` and a `value`; of two with one name the later value counts.
-/

namespace AnnotationResolution

namespace TypeRef

mutual

def toJson : TypeRef → Json
  | named name args =>
    .obj [("type", .str "named"), ("name", .str name), ("args", .arr (listToJson args))]
  | param name => .obj [("type", .str "variable"), ("name", .str name)]
  | array component => .obj [("type", .str "array"), ("component", toJson component)]

def listToJson : List TypeRef → List Json
  | [] => []
  | ty :: rest => toJson ty :: listToJson rest

end

/-- A named type may leave out its arguments. -/
def forms : List (String × List String × List String) :=
  [("named", ["name"], ["args"]), ("variable", ["name"], []), ("array", ["component"], [])]

mutual

def ofFields? (access : Json.Access) (j : Json) : Option TypeRef :=
  match j.variant? "type" forms access with
  | some ⟨record, "named"⟩ => do
    let name ← Json.required record.fields "name" Json.str?
    match _h : Json.field? record.fields "args" with
    | none => some (named name [])
    | some (.arr items) => return named name (← listOfJson? items)
    | some _ => none
  | some ⟨record, "variable"⟩ => return param (← Json.required record.fields "name" Json.str?)
  | some ⟨record, "array"⟩ =>
    match _h : Json.field? record.fields "component" with
    | none => none
    | some component => return array (← ofFields? .setAside component)
  | _ => none
termination_by sizeOf j
decreasing_by
  · exact Nat.lt_trans (Json.sizeOf_items_lt _) (record.smaller _h)
  · exact record.smaller _h

def listOfJson? : List Json → Option (List TypeRef)
  | [] => some []
  | item :: rest => return (← ofFields? .setAside item) :: (← listOfJson? rest)
termination_by items => sizeOf items

end

def ofJson? (access : Json.Access) (j : Json) : Option TypeRef :=
  if j.canSetAside access then ofFields? access j else none

end TypeRef

namespace Members

variable {α : Type}

def toJson (write : α → Json) (m : Members α) : Json :=
  .arr (m.entries.map fun entry => .obj [("name", .str entry.1), ("value", write entry.2)])

def ofJson? (read : Json → Option α) (j : Json) : Option (Members α) := do
  let entries ← j.list? fun entry => do
    let record ← entry.record? ["name", "value"] []
    return (← Json.required record.fields "name" Json.str?,
      ← Json.required record.fields "value" read)
  return Members.ofList entries

end Members

end AnnotationResolution
