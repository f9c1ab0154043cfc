import AnnotationResolution.Json.Basic

/-!
# Words and tags

A word out of a fixed choice is written as a string, or as the only key of an object with null as its
value.  A value that has several forms carries a tag, a word that names the form.  What belongs to the
form is the content of a field of its own (`tagged?`), or the parts of the form lie beside the tag
(`variant?`).  Instead of an object there may be an array that begins with the tag.

A value is read `direct`, as the document goes by, unless it has to be `setAside` until a tag is
known.  That happens to what belongs to a tag and comes before it (`accessBeside?`), and to everything
in an object whose parts lie beside the tag.  What is set aside must be readable throughout, also
where nothing looks at it.  There the spelling is freer: an empty object may stand for the null beside
a word, and the position of a form for its name (`form?`).
-/

namespace AnnotationResolution.Json

inductive Access where
  | direct
  | setAside
deriving DecidableEq, Repr

universe u

variable {α : Type u}

/-- The text of a word. -/
def wordText? (access : Access) : Json → Option String
  | .str s => some s
  | .obj [(s, .null)] => some s
  | .obj [(s, .obj [])] => if access = .setAside then some s else none
  | _ => none

/-- The value that the word names among those listed. -/
def word? (named : List (String × α)) (access : Access) (j : Json) : Option α :=
  (j.wordText? access).bind fun word => named.lookup word

/-- The tag of an array, or of an object whose parts lie beside it. -/
def form? (forms : List String) (access : Access) : Json → Option String
  | .str s => some s
  | .int n => if access = .setAside ∧ 0 ≤ n then forms[n.toNat]? else none
  | _ => none

/-- How the field `key` is read that belongs to the tag `tag`.  It fails when the field has to be
set aside and cannot be. -/
def accessBeside? (access : Access) (tag key : String) : List (String × Json) → Option Access
  | [] => some access
  | (name, value) :: rest =>
    if name = tag then some access
    else if name = key then (if value.isReadable then some .setAside else none)
    else accessBeside? access tag key rest

/-- Whether the value can be set aside, if it is not yet. -/
def canSetAside (access : Access) (j : Json) : Bool := access = .setAside || j.isReadable

/-- What is found under a tag: the form that the tag names, what belongs to it, and how that is
read. -/
structure Tagged (whole : Json) where
  form : String
  access : Access
  content : Option Json
  smaller {value : Json} : content = some value → sizeOf value < sizeOf whole

/-- The form that the tag `tag` names, and what is found in the field `key`. -/
def tagged? (tag key : String) (forms : List String) (access : Access) :
    (j : Json) → Option (Tagged j)
  | .obj fields => do
    let record ← record? [tag, key] [] (.obj fields)
    let form ← required record.fields tag (wordText? access)
    let access ← accessBeside? access tag key fields
    return ⟨form, access, field? record.fields key, record.smaller⟩
  | .arr [first, content] => do
    let form ← form? forms access first
    return ⟨form, access, some content, by
      rintro _ ⟨⟩
      simp only [arr.sizeOf_spec, List.cons.sizeOf_spec]
      omega⟩
  | _ => none

/-- The form that a tag names, and the record beside the tag. -/
structure Variant (whole : Json) extends Record whole where
  form : String

/-- The form that the tag `tag` names.  Each form is listed with the keys of its record, those that
have a default apart. -/
def variant? (tag : String) (forms : List (String × List String × List String)) (access : Access) :
    (j : Json) → Option (Variant j)
  | .obj fields => do
    let record ← record? [tag] [] (.obj fields)
    let form ← required record.fields tag (form? (forms.map (·.1)) access)
    let (keys, more) ← forms.lookup form
    return ⟨← record? keys more (.obj fields), form⟩
  | .arr (first :: parts) => do
    let form ← form? (forms.map (·.1)) access first
    let (keys, more) ← forms.lookup form
    let record ← record? keys more (.arr parts)
    return ⟨⟨record.fields, fun h => Nat.lt_trans (record.smaller h) (by
      simp only [arr.sizeOf_spec, List.cons.sizeOf_spec]
      omega)⟩, form⟩
  | _ => none

end AnnotationResolution.Json
