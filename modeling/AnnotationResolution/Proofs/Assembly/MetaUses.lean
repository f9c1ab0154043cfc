import AnnotationResolution.Assembly.Stereotypes
import AnnotationResolution.Proofs.DepthFirst.Visits
import AnnotationResolution.Proofs.Recording

/-!
# What annotation types carry

From the annotations of a declaration one gets to the annotations on their types, to those on the
types of these, and so on.  `MetaReached` are the names that come up on the way, and the types may
well carry each other in a circle.

The walk looks into each type once, so it meets just the annotations on the types that are reached
(`mem_metaUses_iff`).  A stereotype is put together from its own uses alone (`of_get?_pending`), and
then its parents and values are those of a single list of uses:

* `mem_parents_foldl`, `nodup_parents_foldl`: the annotation types that carry it, each once;
* `get?_values_foldl`: of each member the first value that a use gives to it.
-/

namespace AnnotationResolution

namespace Environment

variable {env : Environment}

/-! ## What is reached -/

variable (env) in
/-- The annotation is on the annotation type of that name, and it is not excluded. -/
def Carries (name : String) (a : AnnotationInstance) : Prop :=
  ∃ ty, env.model.typeNamed? name = some ty ∧ a ∈ env.model.annotations ty ∧
    env.config.excludes a.annotationType = false

variable (env) in
/-- The given names, and with each name the types of the annotations that it carries. -/
inductive MetaReached (names : List String) : String → Prop
  | given {name : String} (h : name ∈ names) : MetaReached names name
  | carried {via : String} {a : AnnotationInstance} (h : MetaReached names via)
      (ha : env.Carries via a) : MetaReached names a.annotationType

theorem mem_metaUsesOn_iff {via : String} {use : MetaUse} :
    use ∈ env.metaUsesOn via ↔ use.via = via ∧ env.model.typeNamed? via = some use.carrier ∧
      use.applied ∈ env.model.annotations use.carrier ∧
        env.config.excludes use.applied.annotationType = false := by
  obtain ⟨name, carrier, applied⟩ := use
  rw [metaUsesOn]
  cases ht : env.model.typeNamed? via with
  | none => simp
  | some ty => grind

theorem carries_iff {via : String} {a : AnnotationInstance} :
    env.Carries via a ↔ ∃ use ∈ env.metaUsesOn via, use.applied = a := by
  constructor
  · rintro ⟨ty, ht, ha, he⟩
    exact ⟨⟨via, ty, a⟩, mem_metaUsesOn_iff.mpr ⟨rfl, ht, ha, he⟩, rfl⟩
  · rintro ⟨use, hu, rfl⟩
    obtain ⟨-, ht, ha, he⟩ := mem_metaUsesOn_iff.mp hu
    exact ⟨_, ht, ha, he⟩

/-! ## What the walk meets -/

variable (env) in
/-- The uses on an annotation type, each under the annotation type that it leads to. -/
def metaEdges (name : String) : List (String × Option MetaUse) :=
  (env.metaUsesOn name).map fun use => (use.applied.annotationType, some use)

variable (env) in
/-- The walk from given annotation types. -/
def metaWalk (names : List String) : List (Visit String (Option MetaUse)) :=
  depthFirst env.model.types.names (fun name _ => env.metaEdges name) (names.map (·, none)) []

theorem metaUses_eq (names : List String) :
    env.metaUses names = (env.metaWalk names).filterMap Visit.payload := rfl

theorem mem_names_of_metaEdges {name : String} (h : env.metaEdges name ≠ []) :
    name ∈ env.model.types.names := by
  obtain ⟨edge, he⟩ := List.exists_mem_of_ne_nil _ h
  obtain ⟨use, hu, -⟩ := List.mem_map.mp he
  exact Members.mem_names_of_get? (mem_metaUsesOn_iff.mp hu).2.1

theorem mem_metaEdges_fst_iff {via name : String} :
    name ∈ (env.metaEdges via).map (·.1) ↔ ∃ a, env.Carries via a ∧ a.annotationType = name := by
  simp [metaEdges, carries_iff]

/-- **The walk finds what is reached.** -/
theorem mem_freshKeys_metaWalk_iff {names : List String} {name : String} :
    name ∈ freshKeys (env.metaWalk names) ↔ env.MetaReached names name := by
  rw [metaWalk, mem_freshKeys_iff_leads fun _ => mem_names_of_metaEdges]
  constructor
  · rintro ⟨start, hs, hl⟩
    obtain ⟨given, hg, rfl⟩ := List.mem_map.mp hs
    induction hl with
    | refl => exact .given hg
    | tail _ hedge ih =>
      obtain ⟨a, ha, rfl⟩ := mem_metaEdges_fst_iff.mp hedge
      exact .carried ih ha
  · intro h
    induction h with
    | given hg => exact ⟨_, List.mem_map_of_mem hg, .refl⟩
    | carried _ ha ih =>
      obtain ⟨start, hs, hl⟩ := ih
      exact ⟨start, hs, hl.tail (mem_metaEdges_fst_iff.mpr ⟨_, ha, rfl⟩)⟩

/-- **The uses are those on the annotation types that are found, each type looked into once.** -/
theorem metaUses_perm (names : List String) :
    (env.metaUses names).Perm ((freshKeys (env.metaWalk names)).flatMap env.metaUsesOn) := by
  have hpayload : env.metaUses names =
      ((env.metaWalk names).map fun v => (v.key, v.payload)).filterMap Prod.snd := by
    rw [metaUses_eq, List.filterMap_map]
    rfl
  -- The names that the walk starts from are no uses.
  have hstart : (names.map fun name => (name, (none : Option MetaUse))).filterMap Prod.snd = [] := by
    rw [List.filterMap_map]
    exact List.filterMap_eq_nil_iff.mpr fun _ _ => rfl
  have hedges : ∀ name, (env.metaEdges name).filterMap Prod.snd = env.metaUsesOn name := by
    intro name
    rw [metaEdges, List.filterMap_map]
    exact List.filterMap_some
  have hsupport : ∀ name, env.metaEdges name ≠ [] → name ∈ env.model.types.names :=
    fun _ => mem_names_of_metaEdges
  have hperm := (depthFirst_perm hsupport (names.map (·, none)) []).filterMap Prod.snd
  rw [List.filterMap_append, hstart, List.nil_append, List.filterMap_flatMap] at hperm
  simp only [hedges] at hperm
  rw [hpayload]
  exact hperm

theorem mem_metaUses_iff {names : List String} {use : MetaUse} :
    use ∈ env.metaUses names ↔
      env.MetaReached names use.via ∧ use ∈ env.metaUsesOn use.via := by
  rw [(metaUses_perm names).mem_iff, List.mem_flatMap]
  constructor
  · rintro ⟨via, hvia, hu⟩
    obtain rfl := (mem_metaUsesOn_iff.mp hu).1
    exact ⟨mem_freshKeys_metaWalk_iff.mp hvia, hu⟩
  · rintro ⟨hr, hu⟩
    exact ⟨use.via, mem_freshKeys_metaWalk_iff.mpr hr, hu⟩

theorem excludes_of_mem_metaUses {names : List String} {use : MetaUse}
    (h : use ∈ env.metaUses names) : env.config.excludes use.applied.annotationType = false :=
  (mem_metaUsesOn_iff.mp (mem_metaUses_iff.mp h).2).2.2.2

theorem namesDistinct_of_mem_metaUses (hm : env.model.Accepted) {names : List String}
    {use : MetaUse} (h : use ∈ env.metaUses names) : use.applied.NamesDistinct :=
  hm.namesDistinct_of_holds (mem_metaUsesOn_iff.mp (mem_metaUses_iff.mp h).2).2.2.1 (.self _)

/-! ## Putting a stereotype together -/

variable (env) in
/-- A stereotype after one more of its uses. -/
def withUse (pending : PendingStereotype) (use : MetaUse) : PendingStereotype :=
  pending.add use.via (env.recordUse use)

theorem pendingStereotypes_append_singleton (before : List MetaUse) (use : MetaUse) :
    env.pendingStereotypes (before ++ [use]) = env.addUse (env.pendingStereotypes before) use := by
  rw [pendingStereotypes, List.foldl_append]
  rfl

theorem getD_get?_addUse (pending : Members PendingStereotype) (use : MetaUse) (name : String) :
    ((env.addUse pending use).get? name).getD {} =
      if use.applied.annotationType == name then env.withUse ((pending.get? name).getD {}) use
      else (pending.get? name).getD {} := by
  rw [addUse, Members.upsert, Members.get?_insert]
  by_cases h : name = use.applied.annotationType
  · subst h
    simp [withUse]
  · simp [h, Ne.symm h]

/-- A stereotype is made of its own uses. -/
theorem of_get?_pending {uses : List MetaUse} {name : String} {pending : PendingStereotype}
    (h : (env.pendingStereotypes uses).get? name = some pending) :
    pending = (uses.filter (·.applied.annotationType == name)).foldl env.withUse {} := by
  have hrun : ((env.pendingStereotypes uses).get? name).getD {} =
      (uses.filter (·.applied.annotationType == name)).foldl env.withUse {} := by
    rw [List.foldl_filter]
    exact (List.foldl_hom (fun pending : Members PendingStereotype => (pending.get? name).getD {})
      fun pending use => (getD_get?_addUse pending use name).symm).symm
  rwa [h] at hrun

theorem mem_names_foldl_addUse {uses : List MetaUse} {pending : Members PendingStereotype}
    {name : String} :
    name ∈ (uses.foldl env.addUse pending).names ↔
      name ∈ pending.names ∨ ∃ use ∈ uses, use.applied.annotationType = name := by
  induction uses generalizing pending with
  | nil => simp
  | cons use rest ih =>
    rw [List.foldl_cons, ih, addUse, Members.upsert, Members.mem_names_insert, or_assoc,
      List.exists_mem_cons_iff, eq_comm]

theorem mem_names_pendingStereotypes {uses : List MetaUse} {name : String} :
    name ∈ (env.pendingStereotypes uses).names ↔
      ∃ use ∈ uses, use.applied.annotationType = name := by
  rw [pendingStereotypes, mem_names_foldl_addUse]
  exact or_iff_right List.not_mem_nil

/-! ### Its parents -/

theorem mem_parents_withUse {pending : PendingStereotype} {use : MetaUse} {via : String} :
    via ∈ (env.withUse pending use).parents ↔ via ∈ pending.parents ∨ use.via = via := by
  rw [withUse, PendingStereotype.add]
  dsimp only
  split
  · next h => exact ⟨Or.inl, fun hv => hv.elim id fun he => he ▸ h⟩
  · rw [List.mem_append, List.mem_singleton, eq_comm (a := via)]

theorem nodup_parents_withUse {pending : PendingStereotype} (h : pending.parents.Nodup)
    (use : MetaUse) : (env.withUse pending use).parents.Nodup := by
  rw [withUse, PendingStereotype.add]
  dsimp only
  split
  · exact h
  · next hn => simpa [List.nodup_append] using ⟨h, fun a ha he => hn (he ▸ ha)⟩

theorem mem_parents_foldl {uses : List MetaUse} {pending : PendingStereotype} {via : String} :
    via ∈ (uses.foldl env.withUse pending).parents ↔
      via ∈ pending.parents ∨ ∃ use ∈ uses, use.via = via := by
  induction uses generalizing pending with
  | nil => simp
  | cons use rest ih =>
    rw [List.foldl_cons, ih, mem_parents_withUse, or_assoc, List.exists_mem_cons_iff]

theorem nodup_parents_foldl {pending : PendingStereotype} (h : pending.parents.Nodup)
    (uses : List MetaUse) : (uses.foldl env.withUse pending).parents.Nodup := by
  induction uses generalizing pending with
  | nil => exact h
  | cons use rest ih => exact ih (nodup_parents_withUse h use)

/-! ### Its values -/

theorem values_withUse (pending : PendingStereotype) (use : MetaUse) :
    (env.withUse pending use).values =
      pending.values.insertAllNew
        (sourced .stereotype ((env.recordUse use).map Recorded.pair)) := by
  rw [Members.insertAllNew, sourced, List.map_map, List.foldl_map]
  rfl

theorem get?_values_withUse {use : MetaUse} (h : use.applied.NamesDistinct)
    (pending : PendingStereotype) (member : String) :
    (env.withUse pending use).values.get? member =
      (pending.values.get? member).or
        ((env.memberValue? use.applied member).map (⟨·, .stereotype⟩)) := by
  have hall : ((env.memberValues use.applied).filter fun entry => entry.1 ∉ ([] : List String)) =
      env.memberValues use.applied := by simp
  rw [values_withUse, Members.get?_insertAllNew, recordUse, map_pair_recordAnnotation _ h, hall,
    lookup_sourced, lookup_memberValues h]

/-- **The first value of a member stays.** -/
theorem get?_values_foldl {uses : List MetaUse} (h : ∀ use ∈ uses, use.applied.NamesDistinct)
    (pending : PendingStereotype) (member : String) :
    (uses.foldl env.withUse pending).values.get? member =
      (pending.values.get? member).or
        ((uses.findSome? fun use => env.memberValue? use.applied member).map
          (⟨·, .stereotype⟩)) := by
  induction uses generalizing pending with
  | nil => simp
  | cons use rest ih =>
    rw [List.forall_mem_cons] at h
    rw [List.foldl_cons, ih h.2, get?_values_withUse h.1, Option.or_assoc, List.findSome?_cons]
    cases env.memberValue? use.applied member <;> rfl

end Environment

end AnnotationResolution
