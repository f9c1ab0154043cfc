import AnnotationResolution.Hierarchy

/-!
# Overridden methods

A method overrides the methods of the same name in the ancestors of its type whose parameters have
the same types, once the type parameters of the ancestor are replaced by what the type supplies for
them (`typeArguments?`).

`overriddenMethods` looks at the interfaces of a type before its superclass, and so on along the
superclasses.  It stops before the root type and behind a superclass whose matching method is not
itself marked as overriding.
-/

namespace AnnotationResolution

namespace Model

variable (m : Model)

/-- The types that a type names as its superclass and interfaces, with their type parameters bound
to the type arguments, in which `bindings` are replaced. -/
def boundParents (id : DeclId) (bindings : Substitution) : List (DeclId × Substitution) :=
  match m.typeInfo? id with
  | none => []
  | some info =>
    (info.superType.toList ++ info.interfaces).filterMap fun ref =>
      match ref with
      | .named name args => do
        let parent ← m.typeNamed? name
        let parentInfo ← m.typeInfo? parent
        return (parent, Members.ofList (parentInfo.params.zip (args.map (·.substitute bindings))))
      | _ => none

/-- What the type parameters of `ancestor` are as seen from `origin`; nothing when `ancestor` is not
reachable. -/
def typeArguments? (origin ancestor : DeclId) : Option Substitution :=
  ((depthFirst m.ids m.boundParents [(origin, ∅)] []).find? (·.key = ancestor)).map Visit.payload

/-- Whether a method takes parameters of the given types.  A type parameter without a binding is
equal to none of them but itself. -/
def signatureMatches (params : List TypeRef) (candidate : DeclId)
    (bindings : Option Substitution) : Bool :=
  let candidateParams := m.parameterTypes candidate
  candidateParams.length == params.length &&
    (candidateParams.zip params).all fun (inherited, own) =>
      if inherited.hasParams then (inherited.substitute (bindings.getD ∅)).sameErasure own
      else inherited.sameErasure own

end Model

/-- A method that is looked for in the ancestors of its type. -/
structure Overriding where
  method : DeclId
  name : String
  origin : DeclId
  params : List TypeRef

/-- Adds what is not in the list yet. -/
def addNew (known : List DeclId) (id : DeclId) : List DeclId :=
  if id ∈ known then known else known ++ [id]

namespace Environment

variable (env : Environment)

/-- The methods of an ancestor that have the name and the parameters looked for. -/
def matchesIn (target : Overriding) (ancestor : DeclId) : List DeclId :=
  let arguments := env.model.typeArguments? target.origin ancestor
  (env.model.methodsNamed ancestor target.name).filter fun candidate =>
    env.model.signatureMatches target.params candidate arguments

def interfaceMatches (target : Overriding) (interface : DeclId) : List DeclId :=
  (env.matchesIn target interface).filter (· ≠ target.method)

/-- Private methods are not overridden. -/
def superclassMatches (target : Overriding) (superclass : DeclId) : List DeclId :=
  (env.matchesIn target superclass).filter fun candidate =>
    (env.model.methodInfo? candidate).any (·.visibility ≠ .privateAccess)

/-- The first class of a chain of overriding methods: a match there is not marked as overriding. -/
def startsChain (found : List DeclId) : Bool :=
  found.any fun candidate => (env.model.methodInfo? candidate).any fun info => !info.overrides

/-- The overridden methods of a class and then of the superclasses above it, after those `found`
before; interfaces in `seen` are not looked at again. -/
def overriddenAbove (target : Overriding) :
    List DeclId → DeclId → List DeclId → List DeclId → List DeclId
  | [], current, seen, found =>
    ((env.interfaceClosure current seen).flatMap (env.interfaceMatches target)).foldl addNew found
  | superclass :: rest, current, seen, found =>
    let interfaces := env.interfaceClosure current seen
    let here := env.superclassMatches target superclass
    let found := (interfaces.flatMap (env.interfaceMatches target)).foldl addNew found
    let found := here.foldl addNew found
    if env.startsChain here then found
    else overriddenAbove target rest superclass (seen ++ interfaces) found

def isRoot (id : DeclId) : Bool := (env.model.declaration? id).any (·.name == env.config.rootType)

/-- The methods that a method overrides, nearest first. -/
def overriddenMethods (method : DeclId) : List DeclId :=
  match env.model.declaration? method with
  | none => []
  | some d =>
    match d.declaringType with
    | none => []
    | some origin =>
      let superclasses := (env.model.superclasses origin).takeWhile fun c => !env.isRoot c
      env.overriddenAbove ⟨method, d.name, origin, env.model.parameterTypes method⟩ superclasses
        origin [origin] []

end Environment

end AnnotationResolution
