import AnnotationResolution.Json.Token

/-!
# Reading a JSON text

The tokens are read one by one by a machine that keeps the arrays and objects still open.  A text
has a value when the machine has read exactly one at its end (`Json.parse?`).  The value may have
parts that are unreadable: strings and numbers without a value, objects with such a key, and arrays
and objects that lie too deep.
-/

namespace AnnotationResolution.Json

/-- An array or object still open, with what it holds so far, last one first.  A key may have no
value. -/
inductive Frame where
  | array (items : List Json)
  | object (fields : List (Option String × Json)) (key : Option String)

/-- The object with the given fields, the last one first. -/
def closeObject (fields : List (Option String × Json)) : Json :=
  match fields.mapM fun field => field.1.map (·, field.2) with
  | some fields => .obj fields.reverse
  | none => .unreadable

/-- What may come next. -/
inductive Reading where
  | value (frames : List Frame)
  | firstItem (frames : List Frame)
  | firstKey (frames : List Frame)
  | key (frames : List Frame) (fields : List (Option String × Json))
  | colon (frames : List Frame) (fields : List (Option String × Json)) (key : Option String)
  /-- A value is complete; nothing, a comma or a closing mark may follow. -/
  | complete (frames : List Frame) (value : Json)

namespace Reading

def startValue (frames : List Frame) : Token → Option Reading
  | .scalar v => some (complete frames v)
  | .text (some s) => some (complete frames (.str s))
  | .text none => some (complete frames .unreadable)
  | .mark '[' => some (firstItem frames)
  | .mark '\x7b' => some (firstKey frames)
  | .mark _ => none

def step : Reading → Token → Option Reading
  | value frames, token => startValue frames token
  | firstItem frames, .mark ']' => some (complete frames (.arr []))
  | firstItem frames, token => startValue (.array [] :: frames) token
  | firstKey frames, .mark '\x7d' => some (complete frames (.obj []))
  | firstKey frames, .text name => some (colon frames [] name)
  | firstKey _, _ => none
  | key frames fields, .text name => some (colon frames fields name)
  | key _ _, _ => none
  | colon frames fields name, .mark ':' => some (value (.object fields name :: frames))
  | colon _ _ _, _ => none
  | complete (.array items :: frames) v, .mark ',' => some (value (.array (v :: items) :: frames))
  | complete (.array items :: frames) v, .mark ']' =>
    some (complete frames (.arr (v :: items).reverse))
  | complete (.object fields name :: frames) v, .mark ',' =>
    some (key frames ((name, v) :: fields))
  | complete (.object fields name :: frames) v, .mark '\x7d' =>
    some (complete frames (closeObject ((name, v) :: fields)))
  | complete _ _, _ => none

end Reading

def ofTokens? (tokens : List Token) : Option Json :=
  match tokens.foldlM Reading.step (Reading.value []) with
  | some (.complete [] v) => some v
  | _ => none

mutual

/-- Arrays and objects below that many levels of others have no value. -/
def limitDepth : Nat → Json → Json
  | 0, .arr _ => .unreadable
  | 0, .obj _ => .unreadable
  | levels + 1, .arr items => .arr (limitItems levels items)
  | levels + 1, .obj fields => .obj (limitFields levels fields)
  | _, .null => .null
  | _, .bool b => .bool b
  | _, .int n => .int n
  | _, .float x => .float x
  | _, .str s => .str s
  | _, .unreadable => .unreadable

def limitItems (levels : Nat) : List Json → List Json
  | [] => []
  | item :: rest => limitDepth levels item :: limitItems levels rest

def limitFields (levels : Nat) : List (String × Json) → List (String × Json)
  | [] => []
  | (key, value) :: rest => (key, limitDepth levels value) :: limitFields levels rest

end

/-- How many arrays and objects may lie in one another. -/
def maxDepth : Nat := 127

/-- The value of a well-formed text. -/
def parse? (text : String) : Option Json :=
  ((Token.ofChars? text.toList).bind ofTokens?).map (limitDepth maxDepth)

end AnnotationResolution.Json
