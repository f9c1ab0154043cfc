import AnnotationResolution.Proofs.Assembly.Building
import AnnotationResolution.Proofs.Assembly.MetaUses

/-!
# Excluded annotations

An excluded annotation counts only for an annotation type.  For any other target it is left out
where it stands on a level, and on annotation types it is left out whatever the target is.  What
lies in a container is taken as it is, so this is the one way in which an excluded name gets into
metadata.

* `excludes_of_mergesInto`, `liesInContainer_of_excludes`: an occurrence that is excluded lies in a
  container.
* `excludes_of_mem_stereotypeNames`: no stereotype is excluded.
-/

namespace AnnotationResolution.Environment

variable {env : Environment}

/-! ## Annotations -/

variable {options : BuildOptions} {target : BuildTarget} {name : String}

theorem excludes_of_mem_keptAnnotations (ht : target.declaration.isAnnotationType = false)
    {level : DeclId} {a : AnnotationInstance} (ha : a ∈ env.keptAnnotations target level) :
    env.config.excludes a.annotationType = false := by
  have hp : env.passesExclusion target a = true :=
    (Bool.and_eq_true_iff.mp (List.mem_filter.mp ha).2).1
  rw [passesExclusion, ht, Bool.false_or, Bool.not_eq_true'] at hp
  exact hp

/-- **A merged annotation is not excluded.** -/
theorem excludes_of_mergesInto (ht : target.declaration.isAnnotationType = false) {o : Occurrence}
    (ho : o ∈ env.occurrences options target) (hm : o.mergesInto name = true) :
    env.config.excludes name = false := by
  obtain ⟨hkept, hplain⟩ := List.mem_filter.mp (mem_plainOn_of_mergesInto ho hm).1
  have hname : o.applied.annotationType = name := eq_of_beq (Bool.and_eq_true_iff.mp hplain).1
  exact hname ▸ excludes_of_mem_keptAnnotations ht hkept

variable (env options target name) in
/-- The annotation type is that of an annotation in a container that counts. -/
def LiesInContainer : Prop :=
  ∃ level ∈ env.levels options target.id, ∃ a ∈ env.keptAnnotations target level,
    ∃ items, env.containerItems? a = some items ∧ ∃ item ∈ items, item.annotationType = name

theorem exists_occurrence_of_liesInContainer (h : env.LiesInContainer options target name) :
    ∃ o ∈ env.occurrences options target, o.applied.annotationType = name := by
  obtain ⟨level, hl, a, ha, items, hc, item, hi, ht⟩ := h
  have happ : (item, some a.annotationType) ∈ env.applications a := by
    rw [applications, hc]
    exact List.mem_map_of_mem hi
  exact ⟨_, mem_occurrences_iff.mpr ⟨level, hl, a, ha, _, happ, rfl⟩, ht⟩

/-- **An excluded annotation that occurs lies in a container.** -/
theorem liesInContainer_of_excludes (ht : target.declaration.isAnnotationType = false)
    {o : Occurrence} (ho : o ∈ env.occurrences options target)
    (he : env.config.excludes o.applied.annotationType = true) :
    env.LiesInContainer options target o.applied.annotationType := by
  obtain ⟨level, hl, a, ha, application, happ, rfl⟩ := mem_occurrences_iff.mp ho
  rw [applications] at happ
  split at happ
  · next items hc =>
    obtain ⟨item, hi, rfl⟩ := List.mem_map.mp happ
    exact ⟨level, hl, a, ha, items, hc, item, hi, rfl⟩
  · obtain rfl := List.mem_singleton.mp happ
    rw [excludes_of_mem_keptAnnotations ht ha] at he
    cases he

/-! ## Stereotypes -/

theorem excludes_of_mem_stereotypeNames (defaults : String → Members Value)
    (h : name ∈ (env.metadataOf defaults (env.assemble options target)).stereotypeNames) :
    env.config.excludes name = false := by
  rw [Metadata.stereotypeNames, metadataOf, Members.names_mapNamed,
    mem_names_pendingStereotypes] at h
  obtain ⟨use, hu, rfl⟩ := h
  rw [assemble] at hu
  dsimp only at hu
  split at hu
  · exact excludes_of_mem_metaUses hu
  · cases hu

/-! ## A build -/

/-- **Excluded names stay out unless a container brings them in.**  The merged annotations and the
stereotypes are never excluded, so containers are all that there is to ask about. -/
theorem build_excludes_iff {id : DeclId} {d : Declaration}
    (hd : env.model.declaration? id = some d) (ht : d.isAnnotationType = false)
    (validator : Option Validator) (cache : DefaultCache) (options : BuildOptions) :
    ∃ result, env.build validator cache options id = .ok result ∧
      ((∀ name ∈ result.metadata.annotationNames ++ result.metadata.stereotypeNames,
          env.config.excludes name = false) ↔
        ∀ name, env.LiesInContainer options ⟨id, d⟩ name → env.config.excludes name = false) ∧
      ∀ name ∈ result.metadata.annotations.names ++ result.metadata.stereotypeNames,
        env.config.excludes name = false := by
  obtain ⟨result, hr, -, hmd⟩ := build_eq validator options hd cache
  have hs : ∀ name ∈ result.metadata.stereotypeNames, env.config.excludes name = false := by
    intro name hn
    rw [hmd] at hn
    exact excludes_of_mem_stereotypeNames _ hn
  refine ⟨result, hr, ⟨fun hall name hl => ?_, fun hcontainers name hn => ?_⟩, fun name hn => ?_⟩
  · refine hall name (List.mem_append_left _ ?_)
    rw [hmd, mem_annotationNames_metadataOf]
    exact exists_occurrence_of_liesInContainer hl
  · rcases List.mem_append.mp hn with ha | hn
    · rw [hmd, mem_annotationNames_metadataOf] at ha
      obtain ⟨o, ho, rfl⟩ := ha
      by_contra he
      rw [Bool.not_eq_false] at he
      rw [hcontainers _ (liesInContainer_of_excludes ht ho he)] at he
      cases he
    · exact hs name hn
  · rcases List.mem_append.mp hn with ha | hn
    · rw [hmd, names_annotations_metadataOf] at ha
      obtain ⟨o, ho⟩ := List.exists_mem_of_ne_nil _ (mem_names_annotations_collectAll.mp ha)
      exact excludes_of_mergesInto ht (List.mem_filter.mp ho).1 (List.mem_filter.mp ho).2
    · exact hs name hn

/-- A class with a container of the excluded annotation `a.Role`. -/
def roleHolder : Environment where
  config := { excludedAnnotations := ["java.lang.annotation.*", "a.Role"] }
  model :=
    { declarations := #[
        ⟨"a.Role", none,
          [⟨"java.lang.annotation.Repeatable",
            ⟨[("value", .typeLiteral (.named "a.Roles" []))]⟩⟩],
          .type { kind := .annotationType }⟩,
        ⟨"a.Roles", none, [], .type { kind := .annotationType }⟩,
        ⟨"a.Service", none, [⟨"a.Roles", ⟨[("value", .list [.nested ⟨"a.Role", ∅⟩])]⟩⟩], .type {}⟩]
      types := ⟨[("a.Role", ⟨0⟩), ("a.Roles", ⟨1⟩), ("a.Service", ⟨2⟩)]⟩ }

theorem liesInContainer_roleHolder {d : Declaration}
    (hd : roleHolder.model.declaration? ⟨2⟩ = some d) :
    roleHolder.LiesInContainer {} ⟨⟨2⟩, d⟩ "a.Role" := by
  obtain ⟨outer, ho⟩ := exists_levels_eq_append hd {}
  let item : AnnotationInstance := ⟨"a.Role", ∅⟩
  let roles : AnnotationInstance := ⟨"a.Roles", ⟨[("value", .list [.nested item])]⟩⟩
  have hkept : roleHolder.keptAnnotations ⟨⟨2⟩, d⟩ ⟨2⟩ = [roles] := by
    cases hd
    rfl
  have hitems : roleHolder.containerItems? roles = some [item] := rfl
  exact ⟨⟨2⟩, by simp [ho], roles, hkept ▸ List.mem_cons_self, [item], hitems, item,
    List.mem_cons_self, rfl⟩

/-- An excluded name in the metadata of a class. -/
theorem excluded_name_of_roleHolder :
    roleHolder.model.Accepted ∧ roleHolder.config.check = .ok () ∧
      ∃ d, roleHolder.model.declaration? ⟨2⟩ = some d ∧ d.isAnnotationType = false ∧
        ∃ result, roleHolder.build none {} {} ⟨2⟩ = .ok result ∧
          "a.Role" ∈ result.metadata.annotationNames ∧
          roleHolder.config.excludes "a.Role" = true := by
  have hload : Model.ofDeclarations roleHolder.model.declarations.toList =
      .ok roleHolder.model := rfl
  have hd : roleHolder.model.declaration? ⟨2⟩ = some _ := rfl
  obtain ⟨result, hr, -, hmd⟩ := build_eq none {} hd {}
  refine ⟨Model.accepted_of_load hload (by decide), by rfl, _, hd, by decide, result, hr, ?_,
    by decide⟩
  rw [hmd, mem_annotationNames_metadataOf]
  exact exists_occurrence_of_liesInContainer (liesInContainer_roleHolder hd)

/-- The container is what brings the name in. -/
theorem build_excludes_iff_roleHolder :
    ∃ result, roleHolder.build none {} {} ⟨2⟩ = .ok result ∧
      (¬ ∀ name ∈ result.metadata.annotationNames ++ result.metadata.stereotypeNames,
        roleHolder.config.excludes name = false) ∧
      ∀ name ∈ result.metadata.annotations.names ++ result.metadata.stereotypeNames,
        roleHolder.config.excludes name = false := by
  have hd : roleHolder.model.declaration? ⟨2⟩ = some _ := rfl
  obtain ⟨result, hr, hiff, hrest⟩ := build_excludes_iff hd (by decide) none {} {}
  refine ⟨result, hr, fun hall => ?_, hrest⟩
  have he := hiff.mp hall "a.Role" (liesInContainer_roleHolder hd)
  exact absurd he (by decide)

end AnnotationResolution.Environment
