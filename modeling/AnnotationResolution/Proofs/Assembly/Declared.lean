import AnnotationResolution.Proofs.Assembly.Entries
import AnnotationResolution.Proofs.Assembly.Merged

/-!
# Annotations on the declaration itself

The metadata answer for an annotation type with its merged entry, if there is one, and only
otherwise with the applications.  What is written on a declaration gets into one of the two: it is
merged, or it is an application, or it stands for the applications in it.

In the last case there may be a merged entry as well, made of what another level has of this type.
This entry is not declared, and it hides the applications (`KeptElsewhere`).  Nothing else keeps an
annotation of the declaration from being reported: `hasDeclaredAnnotation_iff`.
-/

namespace AnnotationResolution

namespace Environment

variable {env : Environment} {options : BuildOptions} {target : BuildTarget}

theorem mem_keptAnnotations_of_passesExclusion
    (hd : env.model.declaration? target.id = some target.declaration) {a : AnnotationInstance}
    (ha : a ∈ target.declaration.annotations) (he : env.passesExclusion target a = true) :
    a ∈ env.keptAnnotations target target.id := by
  have hannotations : env.model.annotations target.id = target.declaration.annotations := by
    rw [Model.annotations, hd]
  have hinheritance : env.passesInheritance target target.id a = true := by
    simp [passesInheritance, isAncestorType]
  rw [keptAnnotations, hannotations, List.mem_filter, he, hinheritance]
  exact ⟨ha, rfl⟩

variable (env options target) in
/-- The target has annotations of this type as containers only, while another level has one that is
kept whole. -/
def KeptElsewhere (annotationType : String) : Prop :=
  env.repeatableContainer? annotationType = none ∧
    env.plainOn target annotationType target.id = [] ∧
    ∃ level ∈ env.levels options target.id, env.plainOn target annotationType level ≠ []

/-- **An annotation on the declaration is reported, unless one elsewhere is kept whole.** -/
theorem hasDeclaredAnnotation_iff (hm : env.model.Accepted)
    (hd : env.model.declaration? target.id = some target.declaration) {a : AnnotationInstance}
    (ha : a ∈ target.declaration.annotations) (he : env.passesExclusion target a = true)
    (defaults : String → Members Value) :
    Metadata.hasDeclaredAnnotation (env.metadataOf defaults (env.assemble options target))
        a.annotationType = true ↔ ¬ env.KeptElsewhere options target a.annotationType := by
  have hkept := mem_keptAnnotations_of_passesExclusion hd ha he
  obtain ⟨outer, ho⟩ := exists_levels_eq_append hd options
  have hlevel : target.id ∈ env.levels options target.id := by simp [ho]
  rw [Metadata.hasDeclaredAnnotation]
  cases hg : (env.metadataOf defaults (env.assemble options target)).annotations.get?
      a.annotationType with
  | some entry =>
    have hname := Members.mem_names_of_get? hg
    have hnone := repeatableContainer?_of_mem_annotations defaults hname
    have hplain := (mem_names_annotations_iff target hnone options defaults).mp hname
    dsimp only
    rw [(of_get?_annotations_metadataOf target hm hd hnone hg).1, KeptElsewhere]
    by_cases hown : env.plainOn target a.annotationType target.id = []
    · simp [hown, hnone, hplain]
    · simp [hown]
  | none =>
    have hmerged := Members.get?_eq_none_iff.mp hg
    refine iff_of_true (List.any_eq_true.mpr ?_) fun hk =>
      hmerged ((mem_names_annotations_iff target hk.1 options defaults).mpr hk.2.2)
    obtain ⟨repeated, hr, hname, use, hu, hs⟩ :=
      (mem_annotations_or_exists_repeated defaults hlevel hkept).resolve_left hmerged
    refine ⟨repeated, hr, Bool.and_eq_true_iff.mpr ⟨by simpa using hname, ?_⟩⟩
    exact List.any_eq_true.mpr ⟨use, hu, decide_eq_true (hs.trans (if_pos rfl))⟩

/-! ## A build -/

/-- **Every annotation on a declaration is reported as declared**, whether it is merged or repeated
or stands for what it contains, unless one elsewhere is kept whole. -/
theorem build_declared_iff (hm : env.model.Accepted) (validator : Option Validator)
    (cache : DefaultCache) (options : BuildOptions) {id : DeclId} {d : Declaration}
    (hd : env.model.declaration? id = some d) {a : AnnotationInstance} (ha : a ∈ d.annotations)
    (he : env.passesExclusion ⟨id, d⟩ a = true) :
    ∃ result, env.build validator cache options id = .ok result ∧
      (result.metadata.hasDeclaredAnnotation a.annotationType = true ↔
        ¬ env.KeptElsewhere options ⟨id, d⟩ a.annotationType) := by
  obtain ⟨result, hr, -, hmd⟩ := build_eq validator options hd cache
  exact ⟨result, hr, by rw [hmd]; exact hasDeclaredAnnotation_iff hm hd ha he _⟩

theorem keptElsewhere_noted {d : Declaration} (hd : noted.model.declaration? ⟨3⟩ = some d) :
    noted.KeptElsewhere {} ⟨⟨3⟩, d⟩ "a.Roles" := by
  obtain rfl := Option.some.inj hd
  exact ⟨by decide, by decide, ⟨2⟩, by simp [levels_noted], by decide⟩

/-- An annotation on a class that is not reported as declared. -/
theorem roles_undeclared_of_noted :
    noted.model.Accepted ∧ noted.config.check = .ok () ∧
      ∃ d, noted.model.declaration? ⟨3⟩ = some d ∧
        (∃ a ∈ d.annotations, a.annotationType = "a.Roles" ∧
          noted.passesExclusion ⟨⟨3⟩, d⟩ a = true) ∧
        ∃ result, noted.build none {} {} ⟨3⟩ = .ok result ∧
          result.metadata.hasDeclaredAnnotation "a.Roles" = false := by
  have hd : noted.model.declaration? ⟨3⟩ = some _ := rfl
  obtain ⟨result, hr, -, hmd⟩ := build_eq none {} hd {}
  let roles : AnnotationInstance := ⟨"a.Roles", ⟨[("value", .list [.nested ⟨"a.Role", ∅⟩])]⟩⟩
  refine ⟨accepted_noted, rfl, _, hd, ⟨roles, List.mem_cons_self, rfl, by decide⟩, result, hr, ?_⟩
  rw [hmd, ← Bool.not_eq_true]
  show ¬ Metadata.hasDeclaredAnnotation _ roles.annotationType = true
  rw [hasDeclaredAnnotation_iff accepted_noted hd List.mem_cons_self (by decide), not_not]
  exact keptElsewhere_noted hd

/-- The class `a.Service` of the other sample declares a container that it has expanded. -/
theorem build_declared_iff_service :
    ∃ result, service.build none {} {} ⟨9⟩ = .ok result ∧
      result.metadata.hasDeclaredAnnotation "a.Roles" = true := by
  have hd : service.model.declaration? ⟨9⟩ = some _ := rfl
  obtain ⟨result, hr, hiff⟩ := build_declared_iff accepted_service none {} {} hd
    (List.mem_cons_of_mem _ List.mem_cons_self) (by decide)
  refine ⟨result, hr, hiff.mpr ?_⟩
  rintro ⟨-, -, level, hl, hplain⟩
  rw [levels_service] at hl
  rcases List.mem_cons.mp hl with rfl | hl
  · exact hplain (by decide)
  · obtain rfl := List.mem_singleton.mp hl
    exact hplain (by decide)

end Environment

end AnnotationResolution
