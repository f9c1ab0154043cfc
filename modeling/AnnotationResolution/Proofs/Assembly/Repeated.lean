import AnnotationResolution.Proofs.Assembly.Building

/-!
# Repeated annotations

A repeatable annotation type gets one instance for each of its applications, whether they were
written one by one or inside a container, and in the order in which they are met from the
declaration outwards.

* `fillDefaults_applicationOf`: what is recorded for an application are the values it gives to its
  members and then the defaults of the others, as `instanceOf` has it.
* `instances_repeatedOf`, `get?_repeated_metadata_eq`: the instances of a type, level by level.
-/

namespace AnnotationResolution.Environment

variable {env : Environment}

variable (env) in
/-- The instance of a repeatable annotation type that an application on a level stands for. -/
def instanceOf (target : BuildTarget) (annotationType : String) (level : DeclId)
    (a : AnnotationInstance) : RepeatedInstance where
  source := sourceOf target level
  values :=
    ⟨sourced (sourceOf target level) (env.memberValues a) ++
      sourced .default ((env.namedDefaults annotationType).entries.filter fun entry =>
        entry.1 ∉ (env.memberValues a).map (·.1))⟩

variable (env) in
def instances (options : BuildOptions) (target : BuildTarget) (annotationType : String) :
    List RepeatedInstance :=
  (env.levels options target.id).reverse.flatMap fun level =>
    (env.applicationsOn target annotationType level).map (env.instanceOf target annotationType level)

theorem fillDefaults_applicationOf {o : Occurrence} (h : o.applied.NamesDistinct)
    {defaults : Members Value} (hd : defaults.names.Nodup) :
    fillDefaults defaults (env.applicationOf o).values =
      ⟨sourced o.source (env.memberValues o.applied) ++
        sourced .default (defaults.entries.filter fun entry =>
          entry.1 ∉ (env.memberValues o.applied).map (·.1))⟩ := by
  have he : (env.applicationOf o).values.entries = sourced o.source (env.memberValues o.applied) :=
    entries_addRecorded o.level h o.source
  have hn : (env.applicationOf o).values.names = (env.memberValues o.applied).map (·.1) := by
    rw [Members.names, he, map_fst_sourced]
  rw [Members.mk.injEq, entries_fillDefaults hd, he, hn]

variable (options : BuildOptions) (target : BuildTarget) {annotationType container : String}

theorem of_mem_filter_repeats (h : env.repeatableContainer? annotationType = some container)
    {o : Occurrence}
    (ho : o ∈ (env.occurrences options target).filter (·.repeats annotationType)) :
    o.source = sourceOf target o.level ∧ o.container = some container := by
  rw [filter_repeats_occurrences target h] at ho
  obtain ⟨level, -, ho⟩ := List.mem_flatMap.mp ho
  obtain ⟨a, -, rfl⟩ := List.mem_map.mp ho
  exact ⟨rfl, rfl⟩

/-- **The occurrences of a repeatable annotation type become its instances.** -/
theorem instances_repeatedOf (hm : env.model.Accepted)
    (h : env.repeatableContainer? annotationType = some container) (name : String) :
    (env.repeatedOf env.namedDefaults annotationType
      ⟨name, ((env.occurrences options target).filter (·.repeats annotationType)).map
        env.applicationOf⟩).instances = env.instances options target annotationType := by
  have hd : (env.namedDefaults annotationType).names.Nodup :=
    names_nodup_namedDefaults env annotationType
  have hone : ∀ o ∈ (env.occurrences options target).filter (·.repeats annotationType),
      RepeatedInstance.mk o.source
          (fillDefaults (env.namedDefaults annotationType) (env.applicationOf o).values) =
        env.instanceOf target annotationType o.level o.applied := by
    intro o ho
    have hn : o.applied.NamesDistinct :=
      namesDistinct_of_mem_occurrences hm (List.mem_filter.mp ho).1
    rw [fillDefaults_applicationOf hn hd, (of_mem_filter_repeats options target h ho).1]
    rfl
  show List.map _ (List.map _ _) = _
  rw [List.map_map]
  refine (List.map_congr_left hone).trans ?_
  rw [filter_repeats_occurrences target h, List.map_flatMap, instances]
  refine List.flatMap_congr fun level _ => ?_
  rw [List.map_map]
  rfl

/-- **A repeatable annotation type is in the metadata with its instances, if it has any.** -/
theorem get?_repeated_metadata_eq (hm : env.model.Accepted)
    (h : env.repeatableContainer? annotationType = some container) :
    (env.metadata options target).repeated.get? annotationType =
      if env.instances options target annotationType = [] then none
      else some ⟨annotationType, container, env.retention annotationType,
        env.instances options target annotationType⟩ := by
  have hi := instances_repeatedOf options target hm h
  rw [get?_repeated_metadata, get?_repeated_collectAll]
  cases hf : (env.occurrences options target).filter (·.repeats annotationType) with
  | nil =>
    have hnil : env.instances options target annotationType = [] := by
      rw [← hi "", hf]
      rfl
    rw [if_pos hnil]
    rfl
  | cons first rest =>
    have hc : first.container = some container :=
      (of_mem_filter_repeats options target h (hf ▸ List.mem_cons_self)).2
    have hne : env.instances options target annotationType ≠ [] := by
      rw [← hi "", hf]
      exact List.cons_ne_nil _ _
    rw [if_neg hne, ← hi container, hf, List.head?_cons, Option.map_some, Option.map_some, hc]
    rfl

/-- **No application of a repeatable annotation is lost, doubled or moved.** -/
theorem build_repeated_instances (hm : env.model.Accepted) {cache : DefaultCache}
    (hc : cache.UsedWith env) (validator : Option Validator) {id : DeclId} {d : Declaration}
    (hd : env.model.declaration? id = some d)
    (ha : env.repeatableContainer? annotationType = some container) :
    ∃ result, env.build validator cache options id = .ok result ∧
      (annotationType ∉ result.metadata.repeated.names ↔
        env.instances options ⟨id, d⟩ annotationType = []) ∧
      ∀ entry, result.metadata.repeated.get? annotationType = some entry →
        entry.container = container ∧
          entry.instances = env.instances options ⟨id, d⟩ annotationType := by
  obtain ⟨result, hr, hmd⟩ := exists_build validator options hd hc
  have hg := get?_repeated_metadata_eq options ⟨id, d⟩ hm ha
  rw [← hmd] at hg
  refine ⟨result, hr, ?_, fun entry he => ?_⟩
  · rw [← Members.get?_eq_none_iff, hg]
    split
    · next hnil => exact iff_of_true rfl hnil
    · next hne => exact iff_of_false (Option.some_ne_none _) hne
  · rw [hg] at he
    split at he
    · cases he
    · cases he
      exact ⟨rfl, rfl⟩

/-- The applications in the container and those beside it, the interface last. -/
theorem build_repeated_instances_service :
    ∃ result, service.build none {} {} ⟨9⟩ = .ok result ∧
      ∃ entry, result.metadata.repeated.get? "a.Role" = some entry ∧
        entry.container = "a.Roles" ∧
        entry.instances = [
          ⟨.declared, ⟨[("value", ⟨.str "user", .declared⟩), ("level", ⟨.str "low", .default⟩)]⟩⟩,
          ⟨.declared, ⟨[("level", ⟨.str "high", .declared⟩), ("value", ⟨.str "admin", .declared⟩)]⟩⟩,
          ⟨.declared, ⟨[("value", ⟨.str "owner", .declared⟩), ("level", ⟨.str "low", .default⟩)]⟩⟩,
          ⟨.inherited, ⟨[("value", ⟨.str "guest", .inherited⟩),
            ("level", ⟨.str "low", .default⟩)]⟩⟩] := by
  have hd : service.model.declaration? ⟨9⟩ = some _ := rfl
  have ha : service.repeatableContainer? "a.Role" = some "a.Roles" := by decide
  obtain ⟨result, hr, hn, he⟩ := build_repeated_instances {} accepted_service .new none hd ha
  rw [instances, levels_service] at hn he
  have hmem : "a.Role" ∈ result.metadata.repeated.names :=
    not_not.mp (mt hn.mp (List.cons_ne_nil _ _))
  obtain ⟨entry, hg⟩ := Members.exists_get?_of_mem_names hmem
  obtain ⟨hc, hi⟩ := he entry hg
  exact ⟨result, hr, entry, hg, hc, hi⟩

end AnnotationResolution.Environment
