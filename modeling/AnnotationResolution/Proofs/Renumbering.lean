import Mathlib.Data.List.Nodup
import AnnotationResolution.Proofs.Assembly.Building
import AnnotationResolution.Proofs.Lists
import AnnotationResolution.Proofs.Model.Loading
import AnnotationResolution.Proofs.Renumbering.Assembly

/-!
# Moved declarations

A permutation of the ids moves the declarations of a model.  They load again, since the checks of the
loader depend on names, on kinds, and on what leads where, and none of this on ids; and the model that
is loaded renumbers the one before (`Model.Accepted.exists_renumbered`).  So whatever is built from
the moved declarations is what was built before, about the declarations under their new ids:
`build_renumbered`.
-/

namespace AnnotationResolution

namespace Model

/-- The declarations of the model in the order of their new ids. -/
def renumberedDeclarations (σ : Equiv.Perm DeclId) (m : Model) : List Declaration :=
  m.ids.filterMap fun id => (m.declaration? (σ.symm id)).map (Declaration.renumber σ)

/-- The ids of the model, among all others, change places with each other. -/
def Permutes (σ : Equiv.Perm DeclId) (m : Model) : Prop := ∀ id, σ id ∈ m.ids ↔ id ∈ m.ids

theorem getElem?_ids (m : Model) (id : DeclId) :
    m.ids[id.index]? = if id ∈ m.ids then some id else none := by
  obtain ⟨index⟩ := id
  by_cases hi : index < m.size
  · simp [ids, hi]
  · simp [ids, hi]

theorem filterMap_ids (m : Model) : m.ids.filterMap m.declaration? = m.declarations.toList := by
  refine List.ext_getElem? fun i => ?_
  rw [getElem?_filterMap fun id hid => mem_ids_iff.mp hid, m.getElem?_ids ⟨i⟩]
  split
  · exact Array.getElem?_toList.symm
  · next hi =>
    have hnone : m.declaration? ⟨i⟩ = none :=
      Option.eq_none_iff_forall_ne_some.mpr fun d hd => hi (mem_ids_iff.mpr ⟨d, hd⟩)
    rw [Array.getElem?_toList]
    exact hnone.symm

theorem typeNames_map_renumber (f : DeclId → DeclId) (declarations : List Declaration) :
    typeNames (declarations.map (Declaration.renumber f)) = typeNames declarations := by
  have ht : Declaration.isType ∘ Declaration.renumber f = Declaration.isType := by
    funext d
    exact d.isType_renumber f
  rw [typeNames, List.filter_map, ht, List.map_map]
  rfl

section

variable {m : Model} {σ : Equiv.Perm DeclId} (hσ : m.Permutes σ)

include hσ

theorem Permutes.symm : m.Permutes σ.symm := fun id => by
  rw [← hσ, Equiv.apply_symm_apply]

/-- A declaration stands under its new id. -/
theorem getElem?_renumberedDeclarations (id : DeclId) :
    (m.renumberedDeclarations σ)[(σ id).index]? =
      (m.declaration? id).map (Declaration.renumber σ) := by
  have hthere : ∀ new ∈ m.ids, ∃ d,
      (m.declaration? (σ.symm new)).map (Declaration.renumber σ) = some d := by
    intro new hnew
    obtain ⟨d, hd⟩ := mem_ids_iff.mp ((hσ.symm new).mpr hnew)
    exact ⟨d.renumber σ, by rw [hd]; rfl⟩
  rw [renumberedDeclarations, getElem?_filterMap hthere, getElem?_ids]
  split
  · rw [Option.bind_some, Equiv.symm_apply_apply]
  · next hout =>
    have hnone : m.declaration? id = none := Option.eq_none_iff_forall_ne_some.mpr fun d hd =>
      hout ((hσ id).mpr (mem_ids_iff.mpr ⟨d, hd⟩))
    rw [hnone]
    rfl

theorem renumberedDeclarations_perm :
    (m.renumberedDeclarations σ).Perm (m.declarations.toList.map (Declaration.renumber σ)) := by
  have hnodup : m.ids.Nodup := by
    refine m.pairwise_ids.imp fun {a b} hlt he => ?_
    rw [he] at hlt
    exact Nat.lt_irrefl _ hlt
  have hids : (m.ids.map σ.symm).Perm m.ids := by
    refine (List.perm_ext_iff_of_nodup (hnodup.map σ.symm.injective) hnodup).mpr fun id => ?_
    rw [List.mem_map]
    constructor
    · rintro ⟨old, ho, rfl⟩
      exact (hσ.symm old).mpr ho
    · exact fun hid => ⟨σ id, (hσ id).mpr hid, σ.symm_apply_apply id⟩
  have hmoved := hids.filterMap fun id => (m.declaration? id).map (Declaration.renumber σ)
  rw [List.filterMap_map] at hmoved
  rw [← m.filterMap_ids, List.map_filterMap]
  exact hmoved

/-- **Moved declarations load again.** -/
theorem Accepted.exists_renumbered (hm : m.Accepted) :
    ∃ moved, ofDeclarations (m.renumberedDeclarations σ) = .ok moved ∧ moved.Accepted ∧
      m.Renumbers σ moved := by
  obtain ⟨htypes, -, hreferences⟩ := ofDeclarations_eq_ok_iff.mp hm.loads
  obtain ⟨hnodup, -⟩ := exists_indexTypes_iff.mp ⟨_, htypes⟩
  -- The index takes the types in, because they are the same types in another order.
  have hnodup' : (typeNames (m.renumberedDeclarations σ)).Nodup := by
    have hperm := ((renumberedDeclarations_perm hσ).filter Declaration.isType).map Declaration.name
    have hsame : ((m.declarations.toList.map (Declaration.renumber σ)).filter
        Declaration.isType).map Declaration.name = typeNames m.declarations.toList :=
      typeNames_map_renumber σ m.declarations.toList
    rw [hsame] at hperm
    exact hperm.nodup_iff.mpr hnodup
  obtain ⟨types, hindex⟩ :
      ∃ types, indexTypes 0 ∅ (m.renumberedDeclarations σ) = .ok types :=
    exists_indexTypes_iff.mpr ⟨hnodup', fun _ _ => List.not_mem_nil⟩
  let moved : Model := ⟨(m.renumberedDeclarations σ).toArray, types⟩
  have hdeclaration : ∀ id,
      moved.declaration? (σ id) = (m.declaration? id).map (Declaration.renumber σ) := by
    intro id
    rw [← getElem?_renumberedDeclarations hσ]
    exact List.getElem?_toArray
  have hold : ∀ {id : DeclId} {d : Declaration}, moved.declaration? id = some d →
      ∃ old, m.declaration? (σ.symm id) = some old ∧ old.renumber σ = d := by
    intro id d hd
    rw [← σ.apply_symm_apply id, hdeclaration] at hd
    exact Option.map_eq_some_iff.mp hd
  have htype : ∀ name, moved.typeNamed? name = (m.typeNamed? name).map σ := by
    intro name
    refine Option.ext fun id => ?_
    rw [Model.typeNamed?_eq_some_iff (m := moved) hindex, Option.map_eq_some_iff]
    constructor
    · rintro ⟨d, hd, ht, hn⟩
      obtain ⟨old, ho, rfl⟩ := hold hd
      exact ⟨σ.symm id, hm.typeNamed?_eq_some_iff.mpr ⟨old, ho, by simpa using ht, hn⟩,
        σ.apply_symm_apply id⟩
    · rintro ⟨oldId, hoid, rfl⟩
      obtain ⟨old, ho, ht, hn⟩ := hm.typeNamed?_eq_some_iff.mp hoid
      exact ⟨old.renumber σ, by rw [hdeclaration, ho]; rfl, by simpa using ht, hn⟩
  have hrenumbers : m.Renumbers σ moved := ⟨hdeclaration, htype⟩
  have hcheck : moved.checkReferences = .ok () := by
    refine checkReferences_eq_ok_iff.mpr fun id d hd reference hr => ?_
    obtain ⟨old, ho, rfl⟩ := hold hd
    rw [old.references_renumber σ] at hr
    obtain ⟨oldReference, hor, rfl⟩ := List.mem_map.mp hr
    show moved.kind? (σ oldReference.1) = some oldReference.2
    rw [hrenumbers.sameShape.kind?]
    exact checkReferences_eq_ok_iff.mp hreferences _ old ho oldReference hor
  have hload : ofDeclarations (m.renumberedDeclarations σ) = .ok moved :=
    ofDeclarations_eq_ok_iff.mpr ⟨hindex, rfl, hcheck⟩
  refine ⟨moved, hload, ⟨hload, fun d hd a ha => ?_⟩, hrenumbers⟩
  obtain ⟨i, hi⟩ := List.mem_iff_getElem?.mp (List.mem_toArray.mp hd)
  have hnew : moved.declaration? ⟨i⟩ = some d := List.getElem?_toArray.trans hi
  obtain ⟨old, ho, rfl⟩ := hold hnew
  exact hm.namesDistinct old (Array.mem_of_getElem? ho) a (old.holds_of_holds_renumber σ ha)

end

end Model

namespace Environment

/-- **Metadata do not depend on how declarations are numbered.**  Moved declarations load again, and
a build from them gives the metadata of the same declaration under its new id.  A validator that
does not look at ids finds the same faults in the same order. -/
theorem build_renumbered {m : Model} (hm : m.Accepted) {σ : Equiv.Perm DeclId}
    (hσ : m.Permutes σ) :
    ∃ moved, Model.ofDeclarations (m.renumberedDeclarations σ) = .ok moved ∧ moved.Accepted ∧
      ∀ (config : Config) (options : BuildOptions) (validator : Option Validator),
        (∀ validate ∈ validator, validate.IgnoresIds) → ∀ id ∈ m.ids,
          ∃ result, build ⟨m, config⟩ validator {} options id = .ok result ∧
            ∃ again, build ⟨moved, config⟩ validator {} options (σ id) = .ok again ∧
              again.metadata = result.metadata ∧
              again.diagnostics = result.diagnostics.map (Diagnostic.renumber σ) := by
  obtain ⟨moved, hload, haccepted, hrenumbers⟩ := hm.exists_renumbered hσ
  refine ⟨moved, hload, haccepted, fun config options validator hv id hid => ?_⟩
  obtain ⟨d, hd⟩ : ∃ d, (Environment.mk m config).model.declaration? id = some d :=
    Model.mem_ids_iff.mp hid
  obtain ⟨result, hr, -⟩ := exists_build validator options hd .new
  have hboth : Renumbers σ ⟨m, config⟩ ⟨moved, config⟩ := ⟨hrenumbers, rfl⟩
  exact ⟨result, hr, result.renumber σ, hboth.build hv {} options hr, rfl, rfl⟩

/-- The class `a.Service` and the annotation type `a.Named` change places. -/
theorem build_renumbered_service :
    ∃ moved, Model.ofDeclarations
        (service.model.renumberedDeclarations (Equiv.swap ⟨0⟩ ⟨9⟩)) = .ok moved ∧
      moved.Accepted ∧
      ∃ result, service.build (some (.nonEmpty ["a.Named#value"])) {} {} ⟨9⟩ = .ok result ∧
        ∃ again, build ⟨moved, service.config⟩ (some (.nonEmpty ["a.Named#value"])) {} {} ⟨0⟩ =
            .ok again ∧
          again.metadata = result.metadata ∧
          again.diagnostics =
            result.diagnostics.map (Diagnostic.renumber (Equiv.swap ⟨0⟩ ⟨9⟩)) := by
  have hσ : service.model.Permutes (Equiv.swap ⟨0⟩ ⟨9⟩) := by
    intro id
    rw [Equiv.swap_apply_def]
    split
    · next h => exact iff_of_true (by decide) (h ▸ by decide)
    · split
      · next h => exact iff_of_true (by decide) (h ▸ by decide)
      · exact Iff.rfl
  obtain ⟨moved, hload, haccepted, hbuild⟩ := build_renumbered accepted_service hσ
  have hv : ∀ validate ∈ some (Validator.nonEmpty ["a.Named#value"]), validate.IgnoresIds := by
    intro validate hvalidate
    obtain rfl := Option.some.inj hvalidate
    exact Validator.ignoresIds_nonEmpty _
  exact ⟨moved, hload, haccepted, hbuild service.config {} _ hv ⟨9⟩ (by decide)⟩

end Environment

end AnnotationResolution
