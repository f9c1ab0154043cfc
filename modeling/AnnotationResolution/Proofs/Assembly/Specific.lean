import AnnotationResolution.Proofs.Assembly.Merged
import AnnotationResolution.Proofs.Hierarchy.Supertypes

/-!
# Values of more specific types

Of two types in a hierarchy the one that comes later overrides the other.  So a type overrides one
above it if it lies on the first way there.  If it leads there by interfaces and lies off that way, it
is itself overridden: a class that names an interface before a more specific one gets the values of
the more general one.

* `overrides_of_sublist`: the order of the hierarchy decides.
* `build_specific_overrides`: which of two types overrides the other.
-/

namespace AnnotationResolution.Environment

variable {env : Environment}

variable (env) in
/-- The winner comes after the loser in the hierarchy.  What it gives to a member is recorded,
whatever the loser gives, unless a level that comes still later gives something. -/
def Overrides (target : BuildTarget) (md : Metadata) (winner loser : DeclId) : Prop :=
  [loser, winner].Sublist (env.typeHierarchy target.id) ∧
    ∀ annotationType member value, env.repeatableContainer? annotationType = none →
      env.valueOn? target annotationType member winner = some value →
      (∀ level, level ≠ loser → [winner, level].Sublist (env.typeHierarchy target.id) →
        env.valueOn? target annotationType member level = none) →
      md.sourcedValue? annotationType member = some ⟨value, sourceOf target winner⟩

/-- Of two keys without repetition the first one is not among those after the second. -/
theorem exists_split_of_sublist {order : List DeclId} {first second : DeclId}
    (hnodup : order.Nodup) (h : [first, second].Sublist order) :
    ∃ before after, order = before ++ second :: after ∧ first ∉ after := by
  obtain ⟨front, rest, rfl, hf, hs⟩ := List.cons_sublist_iff.mp h
  obtain ⟨mid, after, rfl⟩ := List.append_of_mem (List.singleton_sublist.mp hs)
  refine ⟨front ++ mid, after, by rw [List.append_assoc], fun ha => ?_⟩
  have hmem : first ∈ mid ++ second :: after :=
    List.mem_append_right _ (List.mem_cons_of_mem _ ha)
  exact (List.nodup_append.mp hnodup).2.2 first hf first hmem rfl

/-- **Of two levels the later one overrides the earlier.** -/
theorem overrides_of_sublist (hm : env.model.Accepted) {options : BuildOptions}
    (ho : options.declaredOnly = false) {id : DeclId} {d : Declaration}
    (hd : env.model.declaration? id = some d) (ht : d.isType = true) {winner loser : DeclId}
    (h : [loser, winner].Sublist (env.typeHierarchy id)) :
    env.Overrides ⟨id, d⟩ (env.metadata options ⟨id, d⟩) winner loser := by
  refine ⟨h, fun annotationType member value ha hv hlater => ?_⟩
  apply sourcedValue?_of_nearestValue? ⟨id, d⟩ hm hd ha
  obtain ⟨before, after, hsplit, hloser⟩ :=
    exists_split_of_sublist (env.nodup_typeHierarchy id) h
  have hnone : ∀ level ∈ after.reverse,
      (env.valueOn? ⟨id, d⟩ annotationType member level).map
        (SourcedValue.mk · (sourceOf ⟨id, d⟩ level)) = none := by
    intro level hl
    rw [List.mem_reverse] at hl
    have hsub : [winner, level].Sublist (env.typeHierarchy id) := by
      rw [hsplit]
      exact ((List.singleton_sublist.mpr hl).cons_cons winner).trans (List.sublist_append_right _ _)
    have hne : level ≠ loser := fun he => hloser (he ▸ hl)
    rw [hlater level hne hsub, Option.map_none]
  have hlevels : env.levels options id = before ++ winner :: after := by
    rw [levels_of_isType hd ht, ho, if_neg Bool.false_ne_true, hsplit]
  rw [nearestValue?, hlevels, List.reverse_append, List.reverse_cons, List.findSome?_append,
    List.findSome?_append, List.findSome?_eq_none_iff.mpr hnone, List.findSome?_singleton, hv]
  rfl

/-- **Which of two types overrides the other.**  The more specific one does if it lies on the first
way to the more general one.  If it does not, and leads there by interfaces or is a superclass that is
no interface of a class before it, the more general one does. -/
theorem build_specific_overrides (hm : env.model.Accepted) (hacyclic : env.model.Acyclic)
    {cache : DefaultCache} (hc : cache.UsedWith env) (validator : Option Validator)
    {options : BuildOptions} (ho : options.declaredOnly = false) {id : DeclId} {d : Declaration}
    (hd : env.model.declaration? id = some d) (ht : d.isType = true)
    (hn : d.isAnnotationType = false) {special general : DeclId}
    (hs : special ∈ env.typeHierarchy id) (hg : general ∈ env.typeHierarchy id)
    (hsuper : Relation.TransGen env.model.HasSupertype special general) :
    (env.typeHierarchy id).Nodup ∧ (∃ way, env.FirstWay general (env.lineage id) way) ∧
      ∃ result, env.build validator cache options id = .ok result ∧
        ∀ way, env.FirstWay general (env.lineage id) way →
          (special ∈ way → env.Overrides ⟨id, d⟩ result.metadata special general) ∧
          (special ∉ way → Leads env.interfaces special general ∨ env.OnlyAsClass id special →
            env.Overrides ⟨id, d⟩ result.metadata general special) := by
  have hcycle := noCycle_interfaces hacyclic
  have hne : special ≠ general := by
    rintro rfl
    exact hacyclic special hsuper
  obtain ⟨result, hr, hmd⟩ := exists_build validator options hd hc
  have hway := exists_firstWay hcycle (env.exists_leads_of_mem_typeHierarchy hg)
  refine ⟨env.nodup_typeHierarchy id, hway, result, hr, fun way hw => ⟨fun hon => ?_, ?_⟩⟩
  · rw [hmd]
    apply overrides_of_sublist hm ho hd ht
    exact sublist_typeHierarchy_of_mem_way hcycle hd hn hw hon hne
  · rintro hoff (hl | hclass)
    · rw [hmd]
      apply overrides_of_sublist hm ho hd ht
      exact sublist_typeHierarchy_of_leads hcycle hd hn hw hs hl hne hoff
    · rw [hmd]
      apply overrides_of_sublist hm ho hd ht
      exact sublist_typeHierarchy_of_onlyAsClass hd hn hw hclass hoff

/-- Two interfaces, the second below the first, and two classes that name both of them: the first
class begins with the more general one, the other with the more specific one. -/
def twoOrders : Environment where
  config := {}
  model :=
    { declarations := #[
        ⟨"a.Named", none, [], .type { kind := .annotationType }⟩,
        ⟨"a.General", none, [⟨"a.Named", ⟨[("value", .literal (.str "general"))]⟩⟩],
          .type { kind := .interface }⟩,
        ⟨"a.Specific", none, [⟨"a.Named", ⟨[("value", .literal (.str "specific"))]⟩⟩],
          .type { kind := .interface, interfaces := [.named "a.General" []] }⟩,
        ⟨"a.Service", none, [],
          .type { interfaces := [.named "a.General" [], .named "a.Specific" []] }⟩,
        ⟨"a.Worker", none, [],
          .type { interfaces := [.named "a.Specific" [], .named "a.General" []] }⟩]
      types := ⟨[("a.Named", ⟨0⟩), ("a.General", ⟨1⟩), ("a.Specific", ⟨2⟩), ("a.Service", ⟨3⟩),
        ("a.Worker", ⟨4⟩)]⟩ }

theorem accepted_twoOrders : twoOrders.model.Accepted := by
  have hload : Model.ofDeclarations twoOrders.model.declarations.toList = .ok twoOrders.model := rfl
  exact Model.accepted_of_load hload (by decide)

theorem acyclic_twoOrders : twoOrders.model.Acyclic := by
  refine Model.acyclic_of_decreasing fun sub super h => ?_
  have hids : ∀ id ∈ twoOrders.model.ids, twoOrders.model.superType? id = none ∧
      ∀ super ∈ twoOrders.model.interfaces id, super.index < id.index := by decide
  rcases h with h | h
  · have hnone := (hids sub (Model.mem_ids_of_superType? h)).1
    rw [h] at hnone
    cases hnone
  · exact (hids sub (Model.mem_ids_of_mem_interfaces h)).2 super h

theorem hasSupertype_twoOrders :
    Relation.TransGen twoOrders.model.HasSupertype ⟨2⟩ ⟨1⟩ :=
  .single (Or.inr (by decide))

theorem lineage_twoOrders {id : DeclId} (h : twoOrders.model.superType? id = none) :
    twoOrders.lineage id = [id] := by
  simp [lineage, Model.superclasses, depthFirst, freshKeys, h]

theorem typeHierarchy_twoOrders :
    twoOrders.typeHierarchy ⟨3⟩ = [⟨2⟩, ⟨1⟩, ⟨3⟩] ∧
      twoOrders.typeHierarchy ⟨4⟩ = [⟨1⟩, ⟨2⟩, ⟨4⟩] := by
  have h1 : twoOrders.interfaces ⟨1⟩ = [] := by decide
  have h2 : twoOrders.interfaces ⟨2⟩ = [⟨1⟩] := by decide
  have h3 : twoOrders.interfaces ⟨3⟩ = [⟨1⟩, ⟨2⟩] := by decide
  have h4 : twoOrders.interfaces ⟨4⟩ = [⟨2⟩, ⟨1⟩] := by decide
  have hids : twoOrders.model.ids = [⟨0⟩, ⟨1⟩, ⟨2⟩, ⟨3⟩, ⟨4⟩] := rfl
  constructor
  · rw [typeHierarchy_eq twoOrders rfl rfl, lineage_twoOrders (by decide)]
    simp [withClass, addNew, interfaceClosure, depthFirst, freshKeys, h1, h2, h3, hids]
  · rw [typeHierarchy_eq twoOrders rfl rfl, lineage_twoOrders (by decide)]
    simp [withClass, addNew, interfaceClosure, depthFirst, freshKeys, h1, h2, h4, hids]

/-- The more general interface comes after the more specific one, and its value is recorded. -/
theorem general_overrides_specific :
    twoOrders.model.Accepted ∧ twoOrders.model.Acyclic ∧
      (∀ d ∈ twoOrders.model.declarations, twoOrders.config.ignoresBase d.name = false ∧
        twoOrders.config.ignoresInterface d.name = false) ∧
      Relation.TransGen twoOrders.model.HasSupertype ⟨2⟩ ⟨1⟩ ∧
      twoOrders.typeHierarchy ⟨3⟩ = [⟨2⟩, ⟨1⟩, ⟨3⟩] ∧
      ∃ d, twoOrders.model.declaration? ⟨3⟩ = some d ∧
        d.isType = true ∧ d.isAnnotationType = false ∧
        twoOrders.valueOn? ⟨⟨3⟩, d⟩ "a.Named" "value" ⟨3⟩ = none ∧
        twoOrders.valueOn? ⟨⟨3⟩, d⟩ "a.Named" "value" ⟨2⟩ = some (.str "specific") ∧
        twoOrders.valueOn? ⟨⟨3⟩, d⟩ "a.Named" "value" ⟨1⟩ = some (.str "general") ∧
        ∃ result, twoOrders.build none {} {} ⟨3⟩ = .ok result ∧
          result.metadata.value? "a.Named" "value" = some (.str "general") := by
  have hd : twoOrders.model.declaration? ⟨3⟩ = some _ := rfl
  obtain ⟨hh, -⟩ := typeHierarchy_twoOrders
  obtain ⟨result, hr, hmd⟩ := exists_build none {} hd .new
  have hv : result.metadata.sourcedValue? "a.Named" "value" =
      some ⟨.str "general", .inherited⟩ := by
    rw [hmd]
    apply sourcedValue?_of_nearestValue? _ accepted_twoOrders hd (by decide)
    rw [nearestValue?, levels_of_isType hd rfl, if_neg (by decide), hh]
    rfl
  refine ⟨accepted_twoOrders, acyclic_twoOrders, by decide, hasSupertype_twoOrders, hh, _, hd, rfl,
    rfl, rfl, rfl, rfl, result, hr, ?_⟩
  rw [Metadata.value?, hv]
  rfl

/-- The class that names the more specific interface first gets its value. -/
theorem build_specific_overrides_twoOrders :
    ∃ result, twoOrders.build none {} {} ⟨4⟩ = .ok result ∧
      result.metadata.sourcedValue? "a.Named" "value" = some ⟨.str "specific", .inherited⟩ := by
  have hd : twoOrders.model.declaration? ⟨4⟩ = some _ := rfl
  obtain ⟨-, hh⟩ := typeHierarchy_twoOrders
  obtain ⟨-, -, result, hr, hoverrides⟩ :=
    build_specific_overrides accepted_twoOrders acyclic_twoOrders .new none
      (rfl : ({} : BuildOptions).declaredOnly = false) hd rfl rfl (by rw [hh]; decide)
      (by rw [hh]; decide) hasSupertype_twoOrders
  have h4 : twoOrders.interfaces ⟨4⟩ = [] ++ ⟨2⟩ :: [⟨1⟩] := by decide
  have h2 : twoOrders.interfaces ⟨2⟩ = [] ++ ⟨1⟩ :: [] := by decide
  have hpath : FirstPath twoOrders.interfaces ⟨1⟩ ⟨4⟩ [⟨4⟩, ⟨2⟩, ⟨1⟩] :=
    .step (by decide) h4 (by simp) (.step (by decide) h2 (by simp) .arrived)
  have hway : twoOrders.FirstWay ⟨1⟩ (twoOrders.lineage ⟨4⟩) [⟨4⟩, ⟨2⟩, ⟨1⟩] := by
    rw [lineage_twoOrders (by decide)]
    exact .turn hpath
  obtain ⟨-, hvalue⟩ := (hoverrides _ hway).1 (by decide)
  refine ⟨result, hr, hvalue "a.Named" "value" _ (by decide) rfl fun level hne hsub => ?_⟩
  replace hsub : [⟨2⟩, level].Sublist (twoOrders.typeHierarchy ⟨4⟩) := hsub
  rw [hh] at hsub
  have hlevel : level ∈ ([⟨1⟩, ⟨2⟩, ⟨4⟩] : List DeclId) :=
    hsub.subset (List.mem_cons_of_mem _ List.mem_cons_self)
  simp only [List.mem_cons, List.not_mem_nil, or_false] at hlevel
  rcases hlevel with rfl | rfl | rfl
  · exact absurd rfl hne
  · exact absurd hsub (by decide)
  · rfl

end AnnotationResolution.Environment
