import AnnotationResolution.Model

/-!
# Loading a model

`Model.ofDeclarations` takes declarations in the order of their ids.  It fails when two types share
a name, and otherwise when a reference leads to no declaration or to one of the wrong kind; the
first failure in the order of the declarations is reported, repeated names before references.
-/

namespace AnnotationResolution.Model

/-- Adds the types among the declarations, which begin at position `next`, to the index. -/
def indexTypes (next : Nat) (index : Members DeclId) :
    List Declaration → Except ModelError (Members DeclId)
  | [] => pure index
  | d :: rest =>
    if d.isType then
      if index.contains d.name then throw (.duplicateType d.name)
      else indexTypes (next + 1) (index.insert d.name ⟨next⟩) rest
    else indexTypes (next + 1) index rest

def checkReference (m : Model) (owner : DeclId) (reference : DeclId × ElementKind) :
    Except ModelError Unit :=
  match m.kind? reference.1 with
  | none => throw (.danglingReference owner reference.1)
  | some found =>
    if found = reference.2 then pure ()
    else throw (.wrongReferenceKind owner reference.1 reference.2 found)

def checkReferences (m : Model) : Except ModelError Unit :=
  m.ids.forM fun owner =>
    match m.declaration? owner with
    | some d => d.references.forM (m.checkReference owner)
    | none => pure ()

def ofDeclarations (declarations : List Declaration) : Except ModelError Model := do
  let types ← indexTypes 0 ∅ declarations
  let model : Model := ⟨declarations.toArray, types⟩
  model.checkReferences
  return model

end AnnotationResolution.Model
