import AnnotationResolution.Model

/-!
# Building a model step by step

Each step that adds a declaration also gives its id.  A method, field or parameter is entered in
the lists of its owner, if the owner is of the right kind.  A type that takes the name of an earlier
one takes its place in the index; renaming a declaration leaves the index as it is.
-/

namespace AnnotationResolution.Model

def push (m : Model) (d : Declaration) : Model × DeclId :=
  let id : DeclId := ⟨m.size⟩
  (⟨m.declarations.push d, if d.isType then m.types.insert d.name id else m.types⟩, id)

/-- Changes one declaration; its name and kind in the index stay as they were. -/
def modify (m : Model) (id : DeclId) (f : Declaration → Declaration) : Model :=
  { m with declarations := m.declarations.modify id.index f }

def modifyType (m : Model) (id : DeclId) (f : TypeInfo → TypeInfo) : Model :=
  m.modify id fun d =>
    match d.element with
    | .type info => { d with element := .type (f info) }
    | _ => d

def modifyMethod (m : Model) (id : DeclId) (f : MethodInfo → MethodInfo) : Model :=
  m.modify id fun d =>
    match d.element with
    | .method info => { d with element := .method (f info) }
    | _ => d

def addType (m : Model) (name : String) (info : TypeInfo) : Model × DeclId :=
  m.push { name, element := .type info }

def addPackage (m : Model) (name : String) : Model × DeclId :=
  m.push { name, element := .package }

def addMethod (m : Model) (owner : DeclId) (name : String) (info : MethodInfo) : Model × DeclId :=
  let (m, id) := m.push { name, declaringType := some owner, element := .method info }
  (m.modifyType owner fun ownerInfo => { ownerInfo with methods := ownerInfo.methods ++ [id] }, id)

def addField (m : Model) (owner : DeclId) (name : String) (info : FieldInfo) : Model × DeclId :=
  let (m, id) := m.push { name, declaringType := some owner, element := .field info }
  (m.modifyType owner fun ownerInfo => { ownerInfo with fields := ownerInfo.fields ++ [id] }, id)

def addProperty (m : Model) (owner : DeclId) (name : String) (ty : TypeRef) : Model × DeclId :=
  m.push { name, declaringType := some owner, element := .property ty }

/-- A parameter comes last among those of its method and shares the method's declaring type. -/
def addParameter (m : Model) (method : DeclId) (name : String) (ty : TypeRef) : Model × DeclId :=
  let index :=
    match m.methodInfo? method with
    | some info => info.parameters.length
    | none => 0
  let declaringType := (m.declaration? method).bind Declaration.declaringType
  let (m, id) := m.push { name, declaringType, element := .parameter { ty, method, index } }
  (m.modifyMethod method fun info => { info with parameters := info.parameters ++ [id] }, id)

def annotate (m : Model) (id : DeclId) (a : AnnotationInstance) : Model :=
  m.modify id fun d => { d with annotations := d.annotations ++ [a] }

def rename (m : Model) (id : DeclId) (name : String) : Model :=
  m.modify id fun d => { d with name }

end AnnotationResolution.Model
