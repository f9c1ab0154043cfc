/-!
# JSON values

Numbers written without fraction and exponent are integers of 64 bits, signed or not; all others are
doubles.  The fields of an object keep their order.  A part of a text may be well-formed and yet have
no value, such as a number too large for a double; it is `unreadable`, which does harm only where it
is looked at (`isReadable`).

A record is written as an object with its keys, or as an array of their values (`record?`).  The
look-ups below read one of its fields; `required`, `optional` and `orElse` are the three ways a
document may treat a field, and each of them fails when the field is there and cannot be read.
-/

namespace AnnotationResolution

inductive Json where
  | null
  | bool (b : Bool)
  | int (n : Int)
  | float (x : Float)
  | str (s : String)
  | arr (items : List Json)
  | obj (fields : List (String × Json))
  /-- What is well-formed and has no value. -/
  | unreadable
deriving BEq, Repr, Inhabited

namespace Json

universe u

variable {α : Type u}

def str? : Json → Option String
  | .str s => some s
  | _ => none

def bool? : Json → Option Bool
  | .bool b => some b
  | _ => none

/-- A character is written as a string that holds it alone. -/
def char? : Json → Option Char
  | .str s =>
    match s.toList with
    | [c] => some c
    | _ => none
  | _ => none

def int64? : Json → Option Int64
  | .int n =>
    if Int64.minValue.toInt ≤ n ∧ n ≤ Int64.maxValue.toInt then some (Int64.ofInt n) else none
  | _ => none

/-- A count or a position. -/
def nat? : Json → Option Nat
  | .int n => if 0 ≤ n then some n.toNat else none
  | _ => none

/-- An integer is read as the double nearest to it. -/
def float? : Json → Option Float
  | .float x => some x
  | .int n => some (Float.ofInt n)
  | _ => none

def list? (item : Json → Option α) : Json → Option (List α)
  | .arr items => items.mapM item
  | _ => none

def ofOption (write : α → Json) : Option α → Json
  | none => .null
  | some value => write value

def ofList (write : α → Json) (items : List α) : Json := .arr (items.map write)

mutual

/-- Whether all parts have a value. -/
def isReadable : Json → Bool
  | .arr items => areReadable items
  | .obj fields => haveReadableValues fields
  | .unreadable => false
  | .null => true
  | .bool _ => true
  | .int _ => true
  | .float _ => true
  | .str _ => true

def areReadable : List Json → Bool
  | [] => true
  | item :: rest => isReadable item && areReadable rest

def haveReadableValues : List (String × Json) → Bool
  | [] => true
  | (_, value) :: rest => isReadable value && haveReadableValues rest

end

/-! ## Fields of a record -/

/-- Whether none of the keys is there twice. -/
def namesOnce (keys : List String) (fields : List (String × Json)) : Bool :=
  keys.all fun key => (fields.map (·.1)).count key ≤ 1

section Fields

variable (fields : List (String × Json)) (key : String) (read : Json → Option α)

def field? : Option Json := fields.lookup key

def required : Option α := (field? fields key).bind read

/-- A missing field and a null one both stand for no value. -/
def optional : Option (Option α) :=
  match field? fields key with
  | none => some none
  | some .null => some none
  | some value => (read value).map some

def orElse (default : α) : Option α :=
  match field? fields key with
  | none => some default
  | some value => read value

end Fields

/-! ## Records -/

theorem sizeOf_field_lt {fields : List (String × Json)} {key : String} {value : Json}
    (h : field? fields key = some value) : sizeOf value < sizeOf (obj fields) := by
  have : sizeOf value < sizeOf fields := by
    induction fields with
    | nil => simp [field?] at h
    | cons entry rest ih =>
      obtain ⟨name, first⟩ := entry
      rw [field?, List.lookup_cons] at h
      split at h
      · obtain rfl : first = value := by simpa using h
        simp
        omega
      · have := ih h
        simp
        omega
  rw [obj.sizeOf_spec]
  omega

theorem sizeOf_items_lt (items : List Json) : sizeOf items < sizeOf (arr items) := by
  rw [arr.sizeOf_spec]
  omega

theorem mem_of_field?_zip {keys : List String} {items : List Json} {key : String} {value : Json}
    (h : field? (keys.zip items) key = some value) : value ∈ items := by
  induction keys generalizing items with
  | nil => cases h
  | cons first rest ih =>
    cases items with
    | nil => cases h
    | cons item others =>
      rw [field?, List.zip_cons_cons, List.lookup_cons] at h
      split at h
      · cases h
        exact List.mem_cons_self
      · exact List.mem_cons_of_mem _ (ih h)

theorem sizeOf_lt_of_field?_zip {keys : List String} {items : List Json} {key : String}
    {value : Json} (h : field? (keys.zip items) key = some value) :
    sizeOf value < sizeOf (arr items) :=
  Nat.lt_trans (List.sizeOf_lt_of_mem (mem_of_field?_zip h)) (sizeOf_items_lt items)

/-- The fields of a record.  They are parts of what the record is written as. -/
structure Record (whole : Json) where
  fields : List (String × Json)
  smaller {key : String} {value : Json} :
    field? fields key = some value → sizeOf value < sizeOf whole

/-- The record that has these keys.  An object may hold other fields besides those of the record, but
none of these twice.  An array holds the values in the order of the keys; those of `more` have a
default, and the last of them may be left out. -/
def record? (keys more : List String) : (j : Json) → Option (Record j)
  | .obj fields =>
    if namesOnce (keys ++ more) fields then some ⟨fields, sizeOf_field_lt⟩ else none
  | .arr items =>
    if keys.length ≤ items.length ∧ items.length ≤ (keys ++ more).length then
      some ⟨(keys ++ more).zip items, sizeOf_lt_of_field?_zip⟩
    else none
  | _ => none

end Json

end AnnotationResolution
