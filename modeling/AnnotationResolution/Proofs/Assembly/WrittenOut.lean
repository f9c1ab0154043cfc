import AnnotationResolution.Proofs.Reannotating

/-!
# Containers written out

A repeatable annotation is written down in a pure container or by itself, and a build takes both for
the same: it takes a container apart (`containerItems?`), and it knows an annotation that stands alone
by its repeatable marker (`repeatableContainer?`).  So the items of a container may take the place of
the container on a declaration, and every build from the model says what it said before:
`build_container_in_place`.

* `flatMap_occurrencesFrom_items`: the items come to the occurrences that the container comes to.
* `occurrences_writtenOut`: every target has the same occurrences.
-/

namespace AnnotationResolution

def Validator.annotationCount : Validator := fun d _ _ _ _ =>
  [d.name ++ ": " ++ toString d.annotations.length]

namespace Environment

variable {env : Environment} {a : AnnotationInstance} {items : List AnnotationInstance}

/-- An item that is no container itself is one application, with the container that it came from. -/
theorem applications_of_mem_containerItems? (hitems : env.containerItems? a = some items)
    {item : AnnotationInstance} (hi : item ∈ items) (hplain : env.containerItems? item = none) :
    env.applications item = [(item, some a.annotationType)] := by
  rw [applications, hplain]
  dsimp only
  rw [((of_containerItems? hitems).2 item hi).1]

/-- **The items come to the same occurrences as their container**, in the same order. -/
theorem flatMap_occurrencesFrom_items (hitems : env.containerItems? a = some items)
    (hplain : ∀ item ∈ items, env.containerItems? item = none)
    (hkept : ∀ b ∈ a :: items, env.config.excludes b.annotationType = false)
    (hmarker : env.config.requireInheritedMarker = false) (target : BuildTarget) (level : DeclId) :
    items.flatMap (env.occurrencesFrom target level) = env.occurrencesFrom target level a := by
  have hpasses : ∀ b ∈ a :: items,
      (env.passesExclusion target b && env.passesInheritance target level b) = true := by
    intro b hb
    simp [passesExclusion, passesInheritance, hkept b hb, hmarker]
  have hitem : ∀ item ∈ items, env.occurrencesFrom target level item =
      [⟨level, sourceOf target level, item, some a.annotationType⟩] := by
    intro item hi
    rw [occurrencesFrom, if_pos (hpasses item (List.mem_cons_of_mem _ hi)),
      applications_of_mem_containerItems? hitems hi (hplain item hi)]
    rfl
  rw [List.flatMap_congr hitem, ← List.map_eq_flatMap, occurrencesFrom,
    if_pos (hpasses a List.mem_cons_self), applications, hitems, List.map_map]
  rfl

theorem exists_holds_of_writtenOut (hitems : env.containerItems? a = some items)
    {before after : List AnnotationInstance} {b inner : AnnotationInstance}
    (hb : b ∈ before ++ items ++ after) (hi : b.Holds inner) :
    ∃ c ∈ before ++ a :: after, c.Holds inner := by
  rw [List.mem_append, List.mem_append] at hb
  rcases hb with (hb | hb) | hb
  · exact ⟨b, List.mem_append_left _ hb, hi⟩
  · exact ⟨a, List.mem_append_right _ List.mem_cons_self,
      ((of_containerItems? hitems).2 b hb).2.trans hi⟩
  · exact ⟨b, List.mem_append_right _ (List.mem_cons_of_mem _ hb), hi⟩

section

variable {id : DeclId} {d : Declaration} {before after : List AnnotationInstance}
  (hm : env.model.Accepted) (hd : env.model.declaration? id = some d)
  (hann : d.annotations = before ++ a :: after) (hitems : env.containerItems? a = some items)

include hm hd hann hitems

theorem accepted_writtenOut : (env.reannotate id (before ++ items ++ after)).model.Accepted := by
  refine hm.reannotate _ fun b hb inner hi => ?_
  obtain ⟨c, hc, hci⟩ := exists_holds_of_writtenOut hitems hb hi
  rw [← hann] at hc
  exact hm.namesDistinct d (Array.mem_of_getElem? hd) inner (.applied hc hci)

variable (hun : d.isType = true → ¬ env.model.MentionsType d.name)
  (hplain : ∀ item ∈ items, env.containerItems? item = none)
  (hkept : ∀ b ∈ a :: items, env.config.excludes b.annotationType = false)
  (hmarker : env.config.requireInheritedMarker = false)

include hun hplain hkept hmarker

theorem occurrencesOn_writtenOut (annotations : List AnnotationInstance) (target : BuildTarget)
    (level : DeclId) :
    (env.reannotate id (before ++ items ++ after)).occurrencesOn
        ((target.renumber (Equiv.refl DeclId)).withAnnotations annotations)
        (Equiv.refl DeclId level) =
      (env.occurrencesOn target level).map (Occurrence.renumber (Equiv.refl DeclId)) := by
  have h : env.Mirrors (Equiv.refl DeclId) (env.reannotate id (before ++ items ++ after)) :=
    mirrors_reannotate hm hd hun _
  by_cases hlevel : id = level
  · subst hlevel
    have hold : env.model.annotations id = before ++ a :: after := by
      rw [Model.annotations, hd]
      exact hann
    have hnew : (env.reannotate id (before ++ items ++ after)).model.annotations
        (Equiv.refl DeclId id) = before ++ items ++ after :=
      Model.annotations_reannotate_self _ hd
    have hmention : ∀ b ∈ before ++ items ++ after, ∀ inner, b.Holds inner →
        env.model.MentionsType inner.annotationType := by
      intro b hb inner hi
      obtain ⟨c, hc, hci⟩ := exists_holds_of_writtenOut hitems hb hi
      rw [← hold] at hc
      exact Model.mentionsType_of_holds hc hci
    rw [occurrencesOn_eq_flatMap, occurrencesOn_eq_flatMap, hnew, hold,
      List.flatMap_congr fun b hb => h.occurrencesFrom annotations target (hmention b hb) id,
      ← List.map_flatMap, List.flatMap_append, List.flatMap_append, List.flatMap_append,
      List.flatMap_cons, flatMap_occurrencesFrom_items hitems hplain hkept hmarker,
      List.append_assoc]
  · exact h.occurrencesOn annotations target (Model.annotations_reannotate_of_ne _ hlevel)

/-- **Every target has the same occurrences.** -/
theorem occurrences_writtenOut (options : BuildOptions) (annotations : List AnnotationInstance)
    (target : BuildTarget) :
    (env.reannotate id (before ++ items ++ after)).occurrences options
        ((target.renumber (Equiv.refl DeclId)).withAnnotations annotations) =
      (env.occurrences options target).map (Occurrence.renumber (Equiv.refl DeclId)) :=
  (mirrors_reannotate hm hd hun _).occurrences annotations target
    (occurrencesOn_writtenOut hm hd hann hitems hun hplain hkept hmarker annotations target) options

end

/-- **A repeatable annotation counts the same in its container and by itself.**  Let a declaration
that is the type of no annotation have a pure container among its annotations, none of whose items is
a pure container itself.  If the items are put in its place, the model is accepted again, and each
build gives the same metadata and, with a validator that does not tell the two models apart, the same
diagnostics.  Neither the container nor its items may be excluded, and no marker may be required for
inheritance, since the type of the container need not be marked as those of its items are. -/
theorem build_container_in_place {id : DeclId} {d : Declaration}
    {before after : List AnnotationInstance} (hm : env.model.Accepted)
    (hd : env.model.declaration? id = some d)
    (hun : d.isType = true → ¬ env.model.MentionsType d.name)
    (hann : d.annotations = before ++ a :: after) (hitems : env.containerItems? a = some items)
    (hplain : ∀ item ∈ items, env.containerItems? item = none)
    (hkept : ∀ b ∈ a :: items, env.config.excludes b.annotationType = false)
    (hmarker : env.config.requireInheritedMarker = false) :
    let writtenOut := env.reannotate id (before ++ items ++ after)
    writtenOut.model.Accepted ∧
      ∀ (validator : Option Validator) (options : BuildOptions), ∀ target ∈ env.model.ids,
        ∃ result, env.build validator {} options target = .ok result ∧
          ∃ again, writtenOut.build validator {} options target = .ok again ∧
            again.metadata = result.metadata ∧
              ((∀ validate ∈ validator,
                  validate.TreatsAlike (Equiv.refl DeclId) env.model writtenOut.model) →
                again.diagnostics = result.diagnostics) := by
  intro writtenOut
  have h : env.Mirrors (Equiv.refl DeclId) writtenOut := mirrors_reannotate hm hd hun _
  refine ⟨accepted_writtenOut hm hd hann hitems, fun validator options target htarget =>
    exists_build_reannotate hm hd hun (fun shown target => ?_) htarget validator⟩
  rw [occurrences_writtenOut hm hd hann hitems hun hplain hkept hmarker]
  exact h.collectAll _

def containedRoles : List AnnotationInstance :=
  [⟨"a.Role", ⟨[("value", .literal (.str "user"))]⟩⟩,
    ⟨"a.Role", ⟨[("level", .literal (.str "high")), ("value", .literal (.str "admin"))]⟩⟩]

/-- Beside the container the class has another annotation before it and a third role after it; a
fourth role is on the interface. -/
theorem build_container_in_place_service :
    ∃ named owner,
      service.model.annotations ⟨9⟩ =
        [named] ++ ⟨"a.Roles", ⟨[("value", .list (containedRoles.map .nested))]⟩⟩ :: [owner] ∧
      let writtenOut := service.reannotate ⟨9⟩ ([named] ++ containedRoles ++ [owner])
      let validator := some (Validator.nonEmpty ["a.Role#value"])
      writtenOut.model.Accepted ∧
        ∃ result, service.build validator {} {} ⟨9⟩ = .ok result ∧
          ∃ again, writtenOut.build validator {} {} ⟨9⟩ = .ok again ∧
            again.metadata = result.metadata ∧ again.diagnostics = result.diagnostics ∧
              (again.metadata.repeated.get? "a.Role").map (·.instances.length) = some 4 := by
  have hd : service.model.declaration? ⟨9⟩ = some _ := rfl
  have hun : ¬ service.model.MentionsType "a.Service" := fun h =>
    absurd h.mem_annotationTypes (by decide)
  have hitems : service.containerItems?
      ⟨"a.Roles", ⟨[("value", .list (containedRoles.map .nested))]⟩⟩ = some containedRoles := rfl
  obtain ⟨haccepted, hbuild⟩ := build_container_in_place accepted_service hd (fun _ => hun)
    (show _ = [_] ++ _ :: [_] from rfl) hitems (by decide) (by decide) rfl
  obtain ⟨result, hr, again, hagain, hmetadata, hdiagnostics⟩ :=
    hbuild (some (Validator.nonEmpty ["a.Role#value"])) {} ⟨9⟩ (by decide)
  refine ⟨_, _, rfl, haccepted, result, hr, again, hagain, hmetadata, hdiagnostics ?_, ?_⟩
  · intro validate hv
    obtain rfl := Option.some.inj hv
    exact (mirrors_reannotate accepted_service hd (fun _ => hun) _).treatsAlike_nonEmpty _
  · obtain ⟨same, hsame, -, hmd⟩ :=
      build_eq (some (Validator.nonEmpty ["a.Role#value"])) {} hd {}
    obtain rfl : same = result := Except.ok.inj (hsame.symm.trans hr)
    rw [hmetadata, hmd, get?_repeated_metadataOf, occurrences, levels_service]
    rfl

/-- A class with these annotations, and what a container of roles needs. -/
def staff (annotations : List AnnotationInstance) : Environment where
  config := { stereotypes := false }
  model :=
    { declarations := #[
        ⟨"a.Role", none,
          [⟨"java.lang.annotation.Repeatable",
            ⟨[("value", .typeLiteral (.named "a.Roles" []))]⟩⟩],
          .type { kind := .annotationType }⟩,
        ⟨"a.Roles", none, [], .type { kind := .annotationType }⟩,
        ⟨"a.Staff", none, annotations, .type {}⟩]
      types := ⟨[("a.Role", ⟨0⟩), ("a.Roles", ⟨1⟩), ("a.Staff", ⟨2⟩)]⟩ }

def holding (roles : List AnnotationInstance) : AnnotationInstance :=
  ⟨"a.Roles", ⟨[("value", .list (roles.map .nested))]⟩⟩

theorem levels_staff (annotations : List AnnotationInstance) :
    (staff annotations).levels {} ⟨2⟩ = [⟨2⟩] := by
  have hd : (staff annotations).model.declaration? ⟨2⟩ = some _ := rfl
  have hi : (staff annotations).interfaces ⟨2⟩ = [] := rfl
  exact levels_of_interfaces hd rfl rfl rfl hi (List.forall_mem_nil _) (List.pairwise_singleton _ _)

/-- What a build says about the class, and which annotations it puts together. -/
theorem exists_build_staff (annotations : List AnnotationInstance) (validator : Option Validator) :
    ∃ result, (staff annotations).build validator {} {} ⟨2⟩ = .ok result ∧
      let collected := (staff annotations).collectAll
        ((staff annotations).occurrencesOn ⟨⟨2⟩, ⟨"a.Staff", none, annotations, .type {}⟩⟩ ⟨2⟩)
      result.metadata.annotations.names = collected.annotations.names ∧
        result.diagnostics = validator.elim [] fun validate =>
          collected.recorded.flatMap (Recorded.diagnostics (staff annotations).model validate) := by
  have hd : (staff annotations).model.declaration? ⟨2⟩ = some _ := rfl
  obtain ⟨result, hr, -, hmd⟩ := build_eq validator {} hd {}
  refine ⟨result, hr, ?_, ?_⟩
  · rw [hmd, names_annotations_metadataOf, occurrences, levels_staff, List.reverse_singleton,
      List.flatMap_singleton]
    rfl
  · rw [diagnostics_of_build _ _ hd hr, assemble, occurrences, levels_staff, List.reverse_singleton,
      List.flatMap_singleton]
    cases validator with
    | none => rfl
    | some validate => exact List.append_nil _

/-- **A container is not its items in every respect.**  A validator that counts the annotations of a
declaration tells them apart.  And a container that holds nothing is not taken apart, so that it is
among the metadata, where its items are none. -/
theorem container_told_apart_staff :
    (let contained := staff [holding containedRoles]
      let writtenOut := staff containedRoles
      contained.model.Accepted ∧ ¬ contained.model.MentionsType "a.Staff" ∧
        contained.containerItems? (holding containedRoles) = some containedRoles ∧
        (∀ item ∈ containedRoles, contained.containerItems? item = none) ∧
        (∀ b ∈ holding containedRoles :: containedRoles,
          contained.config.excludes b.annotationType = false) ∧
        contained.config.requireInheritedMarker = false ∧
        ∃ result, contained.build (some .annotationCount) {} {} ⟨2⟩ = .ok result ∧
          ∃ again, writtenOut.build (some .annotationCount) {} {} ⟨2⟩ = .ok again ∧
            result.diagnostics = List.replicate 3 ⟨⟨2⟩, .error, "a.Staff: 1"⟩ ∧
            again.diagnostics = List.replicate 3 ⟨⟨2⟩, .error, "a.Staff: 2"⟩) ∧
    (let contained := staff [holding []]
      let writtenOut := staff []
      contained.model.Accepted ∧ ¬ contained.model.MentionsType "a.Staff" ∧
        contained.config.excludes "a.Roles" = false ∧
        contained.config.requireInheritedMarker = false ∧
        ∃ result, contained.build none {} {} ⟨2⟩ = .ok result ∧
          ∃ again, writtenOut.build none {} {} ⟨2⟩ = .ok again ∧
            result.metadata.annotations.names = ["a.Roles"] ∧
            again.metadata.annotations.names = []) := by
  have hload : ∀ annotations, Model.ofDeclarations (staff annotations).model.declarations.toList =
      .ok (staff annotations).model := fun _ => rfl
  have hun : ∀ annotations, "a.Staff" ∉ (staff annotations).model.annotationTypes →
      ¬ (staff annotations).model.MentionsType "a.Staff" := fun annotations hn h =>
    hn h.mem_annotationTypes
  constructor
  · obtain ⟨result, hr, -, hdiagnostics⟩ :=
      exists_build_staff [holding containedRoles] (some .annotationCount)
    obtain ⟨again, hagain, -, hagainst⟩ := exists_build_staff containedRoles (some .annotationCount)
    exact ⟨Model.accepted_of_load (hload _) (by decide), hun _ (by decide), rfl, by decide,
      by decide, rfl, result, hr, again, hagain, hdiagnostics.trans rfl, hagainst.trans rfl⟩
  · obtain ⟨result, hr, hcontainer, -⟩ := exists_build_staff [holding []] none
    obtain ⟨again, hagain, hnone, -⟩ := exists_build_staff [] none
    exact ⟨Model.accepted_of_load (hload _) (by decide), hun _ (by decide), by decide, rfl,
      result, hr, again, hagain, hcontainer.trans rfl, hnone.trans rfl⟩

end Environment

end AnnotationResolution
