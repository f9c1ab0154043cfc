import AnnotationResolution.Members

/-!
# Canonical values

What the value of an annotation member is once it is resolved.  A list knows the kind of its items;
`Value.component` is the kind that a value has as an item, and a list passes for what it holds.
-/

namespace AnnotationResolution

/-- The kind of the items of a list. -/
inductive Component where
  | string
  | int
  | float
  | bool
  | char
  | enumConstant
  | classRef
  | nested
  /-- Nothing is known, because there is no item. -/
  | unknown
deriving DecidableEq, Repr

mutual

inductive Value where
  | str (s : String)
  | int (n : Int64)
  | float (x : Float)
  | bool (b : Bool)
  | char (c : Char)
  | enumConstant (typeName constant : String)
  /-- A class by its binary name. -/
  | classRef (name : String)
  | nested (a : NestedAnnotation)
  | list (items : ValueList)

structure NestedAnnotation where
  annotationType : String
  values : Members Value := ∅

structure ValueList where
  component : Component
  items : List Value

end

instance : Inhabited Value := ⟨.bool false⟩

namespace Value

def component : Value → Component
  | str _ => .string
  | int _ => .int
  | float _ => .float
  | bool _ => .bool
  | char _ => .char
  | enumConstant _ _ => .enumConstant
  | classRef _ => .classRef
  | nested _ => .nested
  | list items => items.component

/-- The string that a string, an enum constant or a class is known by. -/
def asString? : Value → Option String
  | str s => some s
  | enumConstant _ constant => some constant
  | classRef name => some name
  | _ => none

def asInt? : Value → Option Int64
  | int n => some n
  | _ => none

def asBool? : Value → Option Bool
  | bool b => some b
  | _ => none

def asList? : Value → Option ValueList
  | list items => some items
  | _ => none

def asAnnotation? : Value → Option NestedAnnotation
  | nested a => some a
  | _ => none

def isEmptyString : Value → Bool
  | str s => s.isEmpty
  | _ => false

end Value

def ValueList.strings (list : ValueList) : List String := list.items.filterMap Value.asString?

def NestedAnnotation.stringValue? (nested : NestedAnnotation) (member : String) : Option String :=
  (nested.values.get? member).bind Value.asString?

end AnnotationResolution
