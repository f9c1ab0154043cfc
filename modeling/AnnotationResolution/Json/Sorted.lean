import AnnotationResolution.Json.Basic

/-!
# Objects with sorted keys

`Json.sorted` puts the fields of every object in the order of their keys, which is the order of the
code points and so also that of the bytes in UTF-8.
-/

namespace AnnotationResolution.Json

def sortFields (fields : List (String × Json)) : List (String × Json) :=
  fields.mergeSort fun a b => a.1 ≤ b.1

mutual

def sorted : Json → Json
  | .arr items => .arr (sortedItems items)
  | .obj fields => .obj (sortFields (sortedFields fields))
  | .null => .null
  | .bool b => .bool b
  | .int n => .int n
  | .float x => .float x
  | .str s => .str s
  | .unreadable => .unreadable

def sortedItems : List Json → List Json
  | [] => []
  | item :: rest => sorted item :: sortedItems rest

def sortedFields : List (String × Json) → List (String × Json)
  | [] => []
  | (key, value) :: rest => (key, sorted value) :: sortedFields rest

end

end AnnotationResolution.Json
