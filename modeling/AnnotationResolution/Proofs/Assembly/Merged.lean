import AnnotationResolution.Proofs.Assembly.Building

/-!
# Merged annotations

An annotation type that has no container gets one entry for all its annotations.  The levels are
taken from the declaration itself outwards, so of each member the nearest value that converts stays,
whichever levels lie between and whatever they record for other members.

* `findSome?_valueFrom_occurrences`: the first value that an occurrence gives to a member is the
  first one that a level gives.
* `source_first_occurrence`: the first occurrence is on the declaration itself if any is.
* `of_get?_annotations_metadataOf`: the source and the values of an entry.
* `sourcedValue?_of_nearestValue?`: what the nearest level gives is what the metadata answers.
-/

namespace AnnotationResolution

theorem Metadata.sourcedValue?_of_get? {md : Metadata} {annotationType : String}
    {entry : AnnotationEntry} (h : md.annotations.get? annotationType = some entry)
    (member : String) : md.sourcedValue? annotationType member = entry.values.get? member := by
  rw [sourcedValue?, values?, entry?, h]
  rfl

namespace Environment

variable {env : Environment}

variable (env) in
/-- The value that the first annotation of a type on a level to do so gives to a member. -/
def valueOn? (target : BuildTarget) (annotationType member : String) (level : DeclId) :
    Option Value :=
  (env.plainOn target annotationType level).findSome? (env.memberValue? · member)

variable (env) in
/-- The value that a member has on the nearest level that gives it one, with its source. -/
def nearestValue? (options : BuildOptions) (target : BuildTarget) (annotationType member : String) :
    Option SourcedValue :=
  (env.levels options target.id).reverse.findSome? fun level =>
    (env.valueOn? target annotationType member level).map (⟨·, sourceOf target level⟩)

variable (target : BuildTarget) {annotationType : String}

theorem findSome?_valueFrom_occurrences (h : env.repeatableContainer? annotationType = none)
    (options : BuildOptions) (member : String) :
    ((env.occurrences options target).filter (·.mergesInto annotationType)).findSome?
        (env.valueFrom? member) =
      env.nearestValue? options target annotationType member := by
  rw [filter_mergesInto_occurrences target h, findSome?_flatMap, nearestValue?]
  congr 1
  funext level
  rw [List.findSome?_map, valueOn?, List.map_findSome?]
  rfl

/-- An occurrence on the declaration itself comes before those on other levels. -/
theorem source_first_occurrence {d : Declaration}
    (hd : env.model.declaration? target.id = some d)
    (h : env.repeatableContainer? annotationType = none) {options : BuildOptions}
    {first : Occurrence}
    (hf : ((env.occurrences options target).filter (·.mergesInto annotationType)).head? =
      some first) :
    first.source =
      if env.plainOn target annotationType target.id = [] then .inherited else .declared := by
  obtain ⟨outer, ho⟩ := exists_levels_eq_append hd options
  rw [filter_mergesInto_occurrences target h, ho] at hf
  rw [List.reverse_append, List.reverse_singleton, List.singleton_append, List.flatMap_cons] at hf
  cases hp : env.plainOn target annotationType target.id with
  | cons a rest =>
    rw [hp, List.map_cons, List.cons_append, List.head?_cons, Option.some_inj] at hf
    rw [← hf, if_neg (List.cons_ne_nil a rest)]
    exact if_pos rfl
  | nil =>
    -- The level of `first` has an annotation of the type, so it is not that of the declaration.
    obtain ⟨level, -, hl⟩ := List.mem_flatMap.mp (List.mem_of_head? (by simpa [hp] using hf))
    obtain ⟨a, ha, rfl⟩ := List.mem_map.mp hl
    have hne : level ≠ target.id := by
      rintro rfl
      rw [hp] at ha
      cases ha
    rw [if_pos rfl]
    exact if_neg hne

theorem mem_names_annotations_iff (h : env.repeatableContainer? annotationType = none)
    (options : BuildOptions) (defaults : String → Members Value) :
    annotationType ∈ (env.metadataOf defaults (env.assemble options target)).annotations.names ↔
      ∃ level ∈ env.levels options target.id, env.plainOn target annotationType level ≠ [] := by
  rw [names_annotations_metadataOf, mem_names_annotations_collectAll,
    filter_mergesInto_occurrences target h]
  simp [List.flatMap_eq_nil_iff]

/-- **The source of an entry, and the nearest value of each member.**  What is filled in comes after
them. -/
theorem of_get?_annotations_metadataOf (hm : env.model.Accepted) {d : Declaration}
    (hd : env.model.declaration? target.id = some d)
    (ha : env.repeatableContainer? annotationType = none) {options : BuildOptions}
    {defaults : String → Members Value} {entry : AnnotationEntry}
    (he : (env.metadataOf defaults (env.assemble options target)).annotations.get? annotationType =
      some entry) :
    entry.source =
        (if env.plainOn target annotationType target.id = [] then .inherited else .declared) ∧
      ∀ member, entry.values.get? member =
        (env.nearestValue? options target annotationType member).or
          (((defaults annotationType).get? member).map (⟨·, .default⟩)) := by
  rw [get?_annotations_metadataOf] at he
  obtain ⟨pending, hp, rfl⟩ := Option.map_eq_some_iff.mp he
  obtain ⟨⟨first, hf, hs⟩, hv⟩ :=
    of_get?_annotations_collectAll (fun o ho => namesDistinct_of_mem_occurrences hm ho) hp
  refine ⟨hs.trans (source_first_occurrence target hd ha hf), fun member => ?_⟩
  show (fillDefaults _ pending.values).get? member = _
  rw [get?_fillDefaults, hv, findSome?_valueFrom_occurrences target ha]

/-- What the nearest level gives to a member is what the metadata answers. -/
theorem sourcedValue?_of_nearestValue? (hm : env.model.Accepted) {d : Declaration}
    (hd : env.model.declaration? target.id = some d)
    (ha : env.repeatableContainer? annotationType = none) {options : BuildOptions}
    {member : String} {v : SourcedValue}
    (hv : env.nearestValue? options target annotationType member = some v) :
    (env.metadata options target).sourcedValue? annotationType member = some v := by
  obtain ⟨level, hl, hlevel⟩ := List.exists_of_findSome?_eq_some hv
  have hplain : env.plainOn target annotationType level ≠ [] := by
    intro hnil
    rw [valueOn?, hnil] at hlevel
    cases hlevel
  obtain ⟨entry, hg⟩ := Members.exists_get?_of_mem_names
    ((mem_names_annotations_iff target ha options env.namedDefaults).mpr
      ⟨level, List.mem_reverse.mp hl, hplain⟩)
  rw [metadata, Metadata.sourcedValue?_of_get? hg,
    (of_get?_annotations_metadataOf target hm hd ha hg).2, hv, Option.some_or]

/-- **Merged member values are exact.** -/
theorem build_merged_values (hm : env.model.Accepted) {cache : DefaultCache}
    (hc : cache.UsedWith env) (validator : Option Validator) (options : BuildOptions) {id : DeclId}
    {d : Declaration} (hd : env.model.declaration? id = some d)
    (ha : env.repeatableContainer? annotationType = none) :
    (env.levels options id).reverse.head? = some id ∧
    ∃ result, env.build validator cache options id = .ok result ∧
      (annotationType ∈ result.metadata.annotations.names ↔
        ∃ level ∈ env.levels options id, env.plainOn ⟨id, d⟩ annotationType level ≠ []) ∧
      ∀ entry, result.metadata.annotations.get? annotationType = some entry →
        entry.source =
          (if env.plainOn ⟨id, d⟩ annotationType id = [] then .inherited else .declared) ∧
        ∀ member, entry.values.get? member =
          (env.nearestValue? options ⟨id, d⟩ annotationType member).or
            (((env.namedDefaults annotationType).get? member).map (⟨·, .default⟩)) := by
  obtain ⟨outer, ho⟩ := exists_levels_eq_append hd options
  obtain ⟨result, hr, hmd⟩ := exists_build validator options hd hc
  refine ⟨by rw [ho, List.reverse_append]; rfl, result, hr, ?_, fun entry he => ?_⟩
  · rw [hmd]
    exact mem_names_annotations_iff ⟨id, d⟩ ha options _
  · rw [hmd] at he
    exact of_get?_annotations_metadataOf ⟨id, d⟩ hm hd ha he

/-- The value of `value` comes from the interface and that of `order` does not. -/
theorem build_merged_values_service :
    ∃ result, service.build none {} {} ⟨9⟩ = .ok result ∧
      ∃ entry, result.metadata.annotations.get? "a.Named" = some entry ∧
        entry.source = .declared ∧
        entry.values.get? "value" = some ⟨.str "base", .inherited⟩ ∧
        entry.values.get? "order" = some ⟨.int 2, .declared⟩ ∧
        entry.values.get? "scope" = some ⟨.str "app", .default⟩ := by
  have hd : service.model.declaration? ⟨9⟩ = some _ := rfl
  have ha : service.repeatableContainer? "a.Named" = none := by decide
  obtain ⟨-, result, hr, hn, he⟩ := build_merged_values accepted_service .new none {} hd ha
  rw [levels_service] at hn
  obtain ⟨entry, hg⟩ := Members.exists_get?_of_mem_names (hn.mpr ⟨⟨9⟩, by decide, by decide⟩)
  obtain ⟨hs, hv⟩ := he entry hg
  refine ⟨result, hr, entry, hg, hs, ?_, ?_, ?_⟩
  all_goals
    rw [hv, nearestValue?, levels_service]
    rfl

end Environment

end AnnotationResolution
