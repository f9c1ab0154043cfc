import AnnotationResolution.Expr
import AnnotationResolution.Value

/-!
# Shapes of raw values

Expressions and host values say the same things in two vocabularies.  `RawValue.shape` looks at the
outermost layer of either and tells what is to be read: nothing, a value that is complete, an
annotation, a list, another name for a value, or a constant of a type.
-/

namespace AnnotationResolution

inductive RawValue where
  | expr (e : Expr)
  | host (h : HostValue)

inductive RawShape where
  | absent
  | complete (value : Value)
  | nested (a : AnnotationInstance)
  | list (items : List RawValue)
  | named (value : RawValue)
  | constant (owner member : String)

def Literal.shape : Literal → RawShape
  | .str s => .complete (.str s)
  | .int n => .complete (.int n)
  | .float x => .complete (.float x)
  | .bool b => .complete (.bool b)
  | .char c => .complete (.char c)
  | .null => .absent

def HostValue.shape : HostValue → RawShape
  | .str s => .complete (.str s)
  | .int n => .complete (.int n)
  | .float x => .complete (.float x)
  | .bool b => .complete (.bool b)
  | .char c => .complete (.char c)
  | .classOf ty => .complete (.classRef ty.binaryName)
  | .enumConstant typeName constant => .complete (.enumConstant typeName constant)
  | .nested a => .nested a
  | .array items => .list (items.map RawValue.host)

def Expr.shape : Expr → RawShape
  | .literal constant => constant.shape
  | .nested a => .nested a
  | .qualified owner member => .constant owner member
  | .typeLiteral ty => .complete (.classRef ty.binaryName)
  | .list items => .list (items.map RawValue.expr)
  | .variableRef _ none => .absent
  | .variableRef _ (some initializer) => .named (.expr initializer)
  | .value resolved => resolved.shape
  | .unsupported _ => .absent

def RawValue.shape : RawValue → RawShape
  | .expr e => e.shape
  | .host h => h.shape

end AnnotationResolution
