import AnnotationResolution.Proofs.Hierarchy.Ancestors

/-!
# The chain of superclasses

The superclasses of a type are found one by one.  `superclassesAbove` is the search from any class of
the chain on, and `superclassesAbove_induction` its recursion: it ends at a superclass that does not
resolve or was passed already, and goes up one class otherwise.

`isSuperclassChain_superclasses` says what comes of it, without the search.
-/

namespace AnnotationResolution.Model

variable (m : Model)

/-- The superclasses above a type up to the first one that was passed. -/
def superclassesAbove (current : DeclId) (passed : List DeclId) : List DeclId :=
  walkOrder m.ids (fun k => (m.superType? k).toList) (m.superType? current).toList passed

/-- **The superclasses of a type**, nearest first: up to one that does not resolve, or that comes
again. -/
structure IsSuperclassChain (ty : DeclId) (chain : List DeclId) : Prop where
  /-- Each is the superclass of the one before, and the first one that of the type. -/
  linked : (ty :: chain).IsChain fun below above => m.superType? below = some above
  nodup : (ty :: chain).Nodup
  ends : ∀ above, m.superType? (chain.getLastD ty) = some above → above ∈ ty :: chain

variable {m}

theorem superclassesAbove_of_none {current : DeclId} (h : m.superType? current = none)
    (passed : List DeclId) : m.superclassesAbove current passed = [] := by
  rw [superclassesAbove, h]
  exact walkOrder_nil passed

theorem superclassesAbove_of_mem {current superclass : DeclId} {passed : List DeclId}
    (h : m.superType? current = some superclass) (hp : superclass ∈ passed) :
    m.superclassesAbove current passed = [] := by
  rw [superclassesAbove, h]
  exact (walkOrder_cons_of_mem hp []).trans (walkOrder_nil passed)

theorem superclassesAbove_of_notMem {current superclass : DeclId} {passed : List DeclId}
    (h : m.superType? current = some superclass) (hp : superclass ∉ passed) :
    m.superclassesAbove current passed =
      superclass :: m.superclassesAbove superclass (superclass :: passed) := by
  rw [superclassesAbove, h]
  refine (walkOrder_cons_of_notMem mem_ids_of_superType?_ne_nil hp []).trans ?_
  rw [List.append_nil]
  rfl

/-- The recursion of the search, as an induction. -/
theorem superclassesAbove_induction {motive : DeclId → List DeclId → Prop}
    (unresolved : ∀ current passed, m.superType? current = none → motive current passed)
    (repeated : ∀ current passed superclass, m.superType? current = some superclass →
      superclass ∈ passed → motive current passed)
    (up : ∀ current passed superclass, m.superType? current = some superclass →
      superclass ∉ passed → motive superclass (superclass :: passed) → motive current passed)
    (current : DeclId) (passed : List DeclId) : motive current passed := by
  induction h : m.superclassesAbove current passed generalizing current passed with
  | nil =>
    cases hs : m.superType? current with
    | none => exact unresolved current passed hs
    | some superclass =>
      by_cases hp : superclass ∈ passed
      · exact repeated current passed superclass hs hp
      · rw [superclassesAbove_of_notMem hs hp] at h
        cases h
  | cons first above ih =>
    cases hs : m.superType? current with
    | none => exact unresolved current passed hs
    | some superclass =>
      by_cases hp : superclass ∈ passed
      · exact repeated current passed superclass hs hp
      · rw [superclassesAbove_of_notMem hs hp] at h
        exact up current passed superclass hs hp (ih superclass _ (List.cons.inj h).2)

theorem linked_superclassesAbove (current : DeclId) (passed : List DeclId) :
    (current :: m.superclassesAbove current passed).IsChain
      fun below above => m.superType? below = some above := by
  induction current, passed using superclassesAbove_induction with
  | unresolved current passed hs =>
    rw [superclassesAbove_of_none hs]
    exact .singleton current
  | repeated current passed superclass hs hp =>
    rw [superclassesAbove_of_mem hs hp]
    exact .singleton current
  | up current passed superclass hs hp ih =>
    rw [superclassesAbove_of_notMem hs hp]
    exact .cons_cons hs ih

theorem ends_superclassesAbove {current : DeclId} {passed : List DeclId} {above : DeclId}
    (h : m.superType? ((m.superclassesAbove current passed).getLastD current) = some above) :
    above ∈ passed ∨ above ∈ m.superclassesAbove current passed := by
  induction current, passed using superclassesAbove_induction with
  | unresolved current passed hs =>
    rw [superclassesAbove_of_none hs, List.getLastD_nil, hs] at h
    cases h
  | repeated current passed superclass hs hp =>
    rw [superclassesAbove_of_mem hs hp, List.getLastD_nil, hs] at h
    exact Or.inl (Option.some.inj h ▸ hp)
  | up current passed superclass hs hp ih =>
    rw [superclassesAbove_of_notMem hs hp, List.getLastD_cons] at h
    rw [superclassesAbove_of_notMem hs hp]
    rcases ih h with hmem | hmem
    · rcases List.mem_cons.mp hmem with rfl | hmem
      · exact Or.inr List.mem_cons_self
      · exact Or.inl hmem
    · exact Or.inr (List.mem_cons_of_mem _ hmem)

/-- **The superclasses of a type are the chain of its superclasses.** -/
theorem isSuperclassChain_superclasses (ty : DeclId) :
    m.IsSuperclassChain ty (m.superclasses ty) where
  linked := linked_superclassesAbove ty [ty]
  nodup := List.nodup_cons.mpr ⟨notMem_superclasses ty, (nodup_freshKeys _ _ _ _).1⟩
  ends above ha := by
    rcases ends_superclassesAbove ha with hmem | hmem
    · rw [List.mem_singleton.mp hmem]
      exact List.mem_cons_self
    · exact List.mem_cons_of_mem _ hmem

end AnnotationResolution.Model
