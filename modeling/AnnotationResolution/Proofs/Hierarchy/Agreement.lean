import AnnotationResolution.Proofs.Hierarchy.Overrides

/-!
# Whether overridden methods are those of ancestors

The hierarchy of a type and the search for overridden methods go up the same superclasses, and they
do not pass over the same ones.  The hierarchy leaves out what the configuration ignores.  The
search ends before the root type and looks at every other superclass, an ignored one included, and
at the interfaces of that one.

* `exists_matches_of_foundOnClass`, `exists_matches_of_foundOnInterfaces`: what is found by a class
  that is not ignored is found on types of the hierarchy.
* `overriddenMethods_agree`: so the two differ by what the ignored superclasses bring in, and by all
  of it.
-/

namespace AnnotationResolution.Environment

variable {env : Environment} {target : Overriding}

variable (env target) in
/-- The superclasses that are searched: those that the search goes beyond, and the one where it
ends. -/
def searchedSuperclasses : List DeclId :=
  env.passedSuperclasses target ++ (env.chainStart? target).toList

variable (env) in
/-- A superclass that is searched **brings in** a method that it has, or that an interface above it
has.  The interfaces above the class where the search ends are not looked at. -/
def BringsIn (target : Overriding) (c method : DeclId) : Prop :=
  c ∈ env.searchedSuperclasses target ∧ (env.FoundOnClass target c method ∨
    c ∈ env.passedSuperclasses target ∧ env.FoundOnInterfaces target c method)

theorem mem_searchedSuperclasses_of_passed {c : DeclId} (hc : c ∈ env.passedSuperclasses target) :
    c ∈ env.searchedSuperclasses target :=
  List.mem_append_left _ hc

theorem mem_superclasses_of_searched {c : DeclId} (hc : c ∈ env.searchedSuperclasses target) :
    c ∈ env.model.superclasses target.origin := by
  have hbelow := takeWhile_not_append_find?_prefix
    (fun c => env.startsChain (env.superclassMatches target c))
    (env.superclassesBelowRoot target.origin)
  exact (List.takeWhile_prefix _).subset (hbelow.subset hc)

/-- Searched and not ignored is what counts for the hierarchy. -/
theorem mem_countedSuperclasses_of_searched {c : DeclId} (hc : c ∈ env.searchedSuperclasses target)
    (hi : env.ignoresSuperclass c = false) : c ∈ env.countedSuperclasses target.origin :=
  List.mem_filter.mpr ⟨mem_superclasses_of_searched hc, by rw [hi]; rfl⟩

theorem mem_typeHierarchy_of_mem_typeAncestors {ty k : DeclId}
    (hk : (env.model.declaration? ty).any Declaration.isAnnotationType = false)
    (h : k ∈ env.typeAncestors ty) : k ∈ env.typeHierarchy ty := by
  rw [typeHierarchy, hk, if_neg Bool.false_ne_true, List.mem_reverse]
  exact List.mem_cons_of_mem _ h

section Found

variable (hk : (env.model.declaration? target.origin).any Declaration.isAnnotationType = false)

include hk

theorem exists_matches_of_foundOnClass {c method : DeclId}
    (hc : c ∈ env.countedSuperclasses target.origin) (h : env.FoundOnClass target c method) :
    ∃ t ∈ env.typeHierarchy target.origin, env.Matches target t method := by
  have hne : c ≠ target.origin := by
    rintro rfl
    exact Model.notMem_superclasses _ (List.mem_filter.mp hc).1
  exact ⟨c, mem_typeHierarchy_of_mem_typeAncestors hk
    ((mem_typeAncestors_iff c).mpr ⟨hne, Or.inl hc⟩), h.1⟩

theorem exists_matches_of_foundOnInterfaces {c method : DeclId}
    (hc : c ∈ target.origin :: env.countedSuperclasses target.origin)
    (h : env.FoundOnInterfaces target c method) :
    ∃ t ∈ env.typeHierarchy target.origin, env.Matches target t method := by
  obtain ⟨-, interface, hne, hreach, hmatch⟩ := h
  exact ⟨interface, mem_typeHierarchy_of_mem_typeAncestors hk
    ((mem_typeAncestors_iff interface).mpr ⟨hne, Or.inr ⟨c, hc, hreach⟩⟩), hmatch⟩

end Found

/-- **The search for overridden methods and the hierarchy agree, but for ignored superclasses.**  An
overridden method is one of a type of the hierarchy, or an ignored superclass brings it in; and
whatever that brings in is overridden. -/
theorem overriddenMethods_agree {method : DeclId}
    (ht : env.model.overriding? method = some target)
    (hk : (env.model.declaration? target.origin).any Declaration.isAnnotationType = false) :
    (∀ x ∈ env.overriddenMethods method,
      (∃ t ∈ env.typeHierarchy target.origin, env.Matches target t x) ∨
        ∃ c, env.ignoresSuperclass c = true ∧ env.BringsIn target c x) ∧
    ∀ c x, env.ignoresSuperclass c = true → env.BringsIn target c x →
      x ∈ env.overriddenMethods method := by
  constructor
  · intro x hx
    rcases (mem_overriddenMethods_iff ht).mp hx with ⟨c, hc, hfound⟩ | ⟨c, hc, hfound⟩
    · rcases List.mem_cons.mp hc with rfl | hpassed
      · exact Or.inl (exists_matches_of_foundOnInterfaces hk List.mem_cons_self hfound)
      · have hsearched := mem_searchedSuperclasses_of_passed hpassed
        cases hi : env.ignoresSuperclass c with
        | true => exact Or.inr ⟨c, hi, hsearched, Or.inr ⟨hpassed, hfound⟩⟩
        | false =>
          have hcounted := mem_countedSuperclasses_of_searched hsearched hi
          exact Or.inl (exists_matches_of_foundOnInterfaces hk (List.mem_cons_of_mem _ hcounted)
            hfound)
    · cases hi : env.ignoresSuperclass c with
      | true => exact Or.inr ⟨c, hi, hc, Or.inl hfound⟩
      | false =>
        exact Or.inl (exists_matches_of_foundOnClass hk (mem_countedSuperclasses_of_searched hc hi)
          hfound)
  · rintro c x - ⟨hc, hfound | ⟨hpassed, hfound⟩⟩
    · exact (mem_overriddenMethods_iff ht).mpr (Or.inr ⟨c, hc, hfound⟩)
    · exact (mem_overriddenMethods_iff ht).mpr (Or.inl ⟨c, List.mem_cons_of_mem _ hpassed, hfound⟩)

/-! ## A sample -/

/-- A class below an ignored one.  Both have a method `run`. -/
def buildTask : Environment where
  config := {}
  model :=
    { declarations := #[
        ⟨"groovy.lang.Script", none, [], .type { methods := [⟨1⟩] }⟩,
        ⟨"run", some ⟨0⟩, [⟨"a.Traced", ∅⟩], .method {}⟩,
        ⟨"a.Task", none, [],
          .type { superType := some (.named "groovy.lang.Script" []), methods := [⟨3⟩] }⟩,
        ⟨"run", some ⟨2⟩, [], .method { overrides := true }⟩]
      types := ⟨[("groovy.lang.Script", ⟨0⟩), ("a.Task", ⟨2⟩)]⟩ }

theorem superclasses_buildTask : buildTask.model.superclasses ⟨2⟩ = [⟨0⟩] := by
  have h2 : buildTask.model.superType? ⟨2⟩ = some ⟨0⟩ := by decide
  have h0 : buildTask.model.superType? ⟨0⟩ = none := rfl
  have hids : buildTask.model.ids = [⟨0⟩, ⟨1⟩, ⟨2⟩, ⟨3⟩] := rfl
  simp [Model.superclasses, depthFirst, freshKeys, h2, h0, hids]

theorem bringsIn_buildTask : buildTask.BringsIn ⟨⟨3⟩, "run", ⟨2⟩, []⟩ ⟨0⟩ ⟨1⟩ := by
  have hstart : buildTask.chainStart? ⟨⟨3⟩, "run", ⟨2⟩, []⟩ = some ⟨0⟩ := by
    rw [chainStart?, superclassesBelowRoot, superclasses_buildTask]
    rfl
  have hfound : buildTask.FoundOnClass ⟨⟨3⟩, "run", ⟨2⟩, []⟩ ⟨0⟩ ⟨1⟩ :=
    mem_superclassMatches_iff.mp (List.mem_singleton_self _)
  refine ⟨?_, Or.inl hfound⟩
  rw [searchedSuperclasses, hstart]
  exact List.mem_append_right _ (List.mem_singleton_self _)

theorem overriddenMethods_agree_buildTask :
    buildTask.model.overriding? ⟨3⟩ = some ⟨⟨3⟩, "run", ⟨2⟩, []⟩ ∧
      (⟨1⟩ : DeclId) ∈ buildTask.overriddenMethods ⟨3⟩ := by
  have ht : buildTask.model.overriding? ⟨3⟩ = some ⟨⟨3⟩, "run", ⟨2⟩, []⟩ := rfl
  exact ⟨ht, (overriddenMethods_agree ht rfl).2 ⟨0⟩ ⟨1⟩ (by decide) bringsIn_buildTask⟩

/-- The method of the ignored class is overridden, and no type of the hierarchy lists it. -/
theorem overrides_ignored_buildTask :
    buildTask.model.Accepted ∧
      (⟨1⟩ : DeclId) ∈ buildTask.overriddenMethods ⟨3⟩ ∧
      ∀ t ∈ buildTask.typeHierarchy ⟨2⟩, ∀ info, buildTask.model.typeInfo? t = some info →
        (⟨1⟩ : DeclId) ∉ info.methods := by
  have ht : buildTask.model.overriding? ⟨3⟩ = some ⟨⟨3⟩, "run", ⟨2⟩, []⟩ := rfl
  have hload : Model.ofDeclarations buildTask.model.declarations.toList = .ok buildTask.model := rfl
  refine ⟨Model.accepted_of_load hload (by decide),
    (mem_overriddenMethods_iff ht).mpr (Or.inr ⟨⟨0⟩, ?_⟩), fun t hmem info hi => ?_⟩
  · exact ⟨bringsIn_buildTask.1, mem_superclassMatches_iff.mp (List.mem_singleton_self _)⟩
  · have hinterfaces : buildTask.interfaces ⟨2⟩ = [] := rfl
    have hclosure : buildTask.interfaceClosure ⟨2⟩ [⟨2⟩] = [] := by
      rw [interfaceClosure_eq, hinterfaces, walkOrder_nil]
    have hignored : buildTask.ignoresSuperclass ⟨0⟩ = true := by decide
    have hhierarchy : buildTask.typeHierarchy ⟨2⟩ = [⟨2⟩] := by
      rw [typeHierarchy, typeAncestors, superclasses_buildTask, hclosure, List.foldl_cons,
        addSuperclass, if_pos hignored]
      rfl
    rw [hhierarchy] at hmem
    obtain rfl := List.mem_singleton.mp hmem
    obtain rfl := Option.some.inj hi
    decide

end AnnotationResolution.Environment
