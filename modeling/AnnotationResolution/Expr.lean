import AnnotationResolution.TypeRef

/-!
# Raw annotation values

What a declaration holds before anything is resolved.  An `AnnotationInstance` is one annotation as
applied, with an `Expr` for each member; a `HostValue` is a value that was resolved elsewhere, such
as a compiled constant; a `Statement` belongs to the body that gives a member its default.
-/

namespace AnnotationResolution

inductive Literal where
  | str (s : String)
  | int (n : Int64)
  | float (x : Float)
  | bool (b : Bool)
  | char (c : Char)
  | null
deriving Repr

mutual

inductive Expr where
  | literal (value : Literal)
  | nested (a : AnnotationInstance)
  /-- A constant of a type, `Owner.MEMBER`. -/
  | qualified (owner member : String)
  /-- A class literal such as `Foo.class`. -/
  | typeLiteral (ty : TypeRef)
  | list (items : List Expr)
  /-- A named variable and its initializer, when that is known. -/
  | variableRef (name : String) (initializer : Option Expr)
  | value (host : HostValue)
  /-- The source of an expression that is not understood. -/
  | unsupported (source : String)

inductive HostValue where
  | str (s : String)
  | int (n : Int64)
  | float (x : Float)
  | bool (b : Bool)
  | char (c : Char)
  | classOf (ty : TypeRef)
  | enumConstant (typeName constant : String)
  | nested (a : AnnotationInstance)
  | array (items : List HostValue)

structure AnnotationInstance where
  annotationType : String
  members : Members Expr := ∅

end

instance : Inhabited Expr := ⟨.literal .null⟩

instance : Inhabited HostValue := ⟨.bool false⟩

inductive Statement where
  | returned (expr : Option Expr)
  | expression (expr : Expr)
  | other (source : String)

end AnnotationResolution
