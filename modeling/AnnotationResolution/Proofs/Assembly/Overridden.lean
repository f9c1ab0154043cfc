import AnnotationResolution.Proofs.Assembly.Merged

/-!
# Values of overridden methods

A method or a parameter that does not set a member itself has the value of an overridden one.  The
overridden methods are listed nearest first and the levels are taken up from their end, so it is the
farthest of them whose value stays.

* `nearestValue?_of_farthestOverridden?`: the farthest value goes before everything that lies
  further out.
* `sourcedValue?_of_farthestOverridden?`: it is what the metadata answers.
-/

namespace AnnotationResolution

namespace Environment

variable {env : Environment} {id : DeclId} {d : Declaration} {annotationType member : String}

variable (options : BuildOptions)

variable (env) in
/-- The value that the first overridden declaration to set a member gives it. -/
def nearestOverridden? (target : BuildTarget) (annotationType member : String) : Option Value :=
  (env.overriddenLevels options target.id).findSome? (env.valueOn? target annotationType member)

variable (env) in
/-- The value that the last overridden declaration to set a member gives it. -/
def farthestOverridden? (target : BuildTarget) (annotationType member : String) : Option Value :=
  (env.overriddenLevels options target.id).reverse.findSome?
    (env.valueOn? target annotationType member)

theorem nearestValue?_of_farthestOverridden? (hd : env.model.declaration? id = some d)
    (hk : d.kind = .method ∨ d.kind = .parameter)
    (hs : env.valueOn? ⟨id, d⟩ annotationType member id = none) {value : Value}
    (hv : env.farthestOverridden? options ⟨id, d⟩ annotationType member = some value) :
    env.nearestValue? options ⟨id, d⟩ annotationType member = some ⟨value, .inherited⟩ := by
  obtain ⟨outer, hl⟩ := exists_levels_eq_overridden hd hk options
  -- The target gives no value, also where it is listed once more.
  have hsource : (fun level => (env.valueOn? ⟨id, d⟩ annotationType member level).map
        (SourcedValue.mk · (sourceOf ⟨id, d⟩ level))) =
      fun level => (env.valueOn? ⟨id, d⟩ annotationType member level).map
        (SourcedValue.mk · .inherited) := by
    funext level
    by_cases h : level = id
    · rw [h, hs]
      rfl
    · rw [sourceOf, if_neg h]
  have hfar : (env.overriddenLevels options id).reverse.findSome? (fun level =>
      (env.valueOn? ⟨id, d⟩ annotationType member level).map (SourcedValue.mk · .inherited)) =
      some ⟨value, .inherited⟩ :=
    calc _ = (env.farthestOverridden? options ⟨id, d⟩ annotationType member).map
              (SourcedValue.mk · .inherited) := List.map_findSome?.symm
      _ = some ⟨value, .inherited⟩ := by rw [hv, Option.map_some]
  rw [nearestValue?, hl, List.reverse_append, List.reverse_append, hsource,
    List.findSome?_append, List.findSome?_append, List.reverse_singleton, List.findSome?_singleton,
    hs, Option.map_none, Option.none_or, hfar, Option.some_or]

theorem sourcedValue?_of_farthestOverridden? (hm : env.model.Accepted)
    (hd : env.model.declaration? id = some d) (hk : d.kind = .method ∨ d.kind = .parameter)
    (ha : env.repeatableContainer? annotationType = none)
    (hs : env.valueOn? ⟨id, d⟩ annotationType member id = none) {value : Value}
    (hv : env.farthestOverridden? options ⟨id, d⟩ annotationType member = some value) :
    (env.metadata options ⟨id, d⟩).sourcedValue? annotationType member =
      some ⟨value, .inherited⟩ := by
  have hnearest := nearestValue?_of_farthestOverridden? options hd hk hs hv
  exact sourcedValue?_of_nearestValue? ⟨id, d⟩ hm hd ha hnearest

/-- **The farthest overridden method decides.**  The nearest one that sets a member has its value
taken just when the farthest one gives the same. -/
theorem build_overridden_values (hm : env.model.Accepted) {cache : DefaultCache}
    (hc : cache.UsedWith env) (validator : Option Validator)
    (hd : env.model.declaration? id = some d) (hk : d.kind = .method ∨ d.kind = .parameter)
    (ha : env.repeatableContainer? annotationType = none)
    (hs : env.valueOn? ⟨id, d⟩ annotationType member id = none) :
    (∃ outer, env.levels options id = outer ++ env.overriddenLevels options id ++ [id]) ∧
    ∃ result, env.build validator cache options id = .ok result ∧
      (∀ value, env.farthestOverridden? options ⟨id, d⟩ annotationType member = some value →
        result.metadata.sourcedValue? annotationType member = some ⟨value, .inherited⟩) ∧
      ∀ value, env.nearestOverridden? options ⟨id, d⟩ annotationType member = some value →
        (result.metadata.sourcedValue? annotationType member = some ⟨value, .inherited⟩ ↔
          env.farthestOverridden? options ⟨id, d⟩ annotationType member = some value) := by
  obtain ⟨result, hr, hmd⟩ := exists_build validator options hd hc
  have hfar : ∀ value, env.farthestOverridden? options ⟨id, d⟩ annotationType member = some value →
      result.metadata.sourcedValue? annotationType member = some ⟨value, .inherited⟩ := by
    intro value hv
    rw [hmd]
    exact sourcedValue?_of_farthestOverridden? options hm hd hk ha hs hv
  refine ⟨exists_levels_eq_overridden hd hk options, result, hr, hfar, fun value hn => ?_⟩
  refine ⟨fun hvalue => ?_, hfar value⟩
  obtain ⟨level, hmem, hlevel⟩ := List.exists_of_findSome?_eq_some hn
  cases hv : env.farthestOverridden? options ⟨id, d⟩ annotationType member with
  | none =>
    rw [List.findSome?_eq_none_iff.mp hv level (List.mem_reverse.mpr hmem)] at hlevel
    cases hlevel
  | some farthest =>
    rw [hfar farthest hv] at hvalue
    cases hvalue
    rfl

/-- Three classes, each below the one before, with a method that overrides the one above.  The first
two methods have the annotation `a.Named`. -/
def namedChain : Environment where
  config := {}
  model :=
    { declarations := #[
        ⟨"a.Top", none, [], .type { methods := [⟨1⟩] }⟩,
        ⟨"run", some ⟨0⟩, [⟨"a.Named", ⟨[("value", .literal (.str "far"))]⟩⟩], .method {}⟩,
        ⟨"a.Middle", none, [],
          .type { superType := some (.named "a.Top" []), methods := [⟨3⟩] }⟩,
        ⟨"run", some ⟨2⟩, [⟨"a.Named", ⟨[("value", .literal (.str "near"))]⟩⟩],
          .method { overrides := true }⟩,
        ⟨"a.Bottom", none, [],
          .type { superType := some (.named "a.Middle" []), methods := [⟨5⟩] }⟩,
        ⟨"run", some ⟨4⟩, [], .method { overrides := true }⟩]
      types := ⟨[("a.Top", ⟨0⟩), ("a.Middle", ⟨2⟩), ("a.Bottom", ⟨4⟩)]⟩ }

theorem accepted_namedChain : namedChain.model.Accepted := by
  have hload : Model.ofDeclarations namedChain.model.declarations.toList =
      .ok namedChain.model := rfl
  exact Model.accepted_of_load hload (by decide)

theorem superclasses_namedChain : namedChain.model.superclasses ⟨4⟩ = [⟨2⟩, ⟨0⟩] := by
  have h4 : namedChain.model.superType? ⟨4⟩ = some ⟨2⟩ := by decide
  have h2 : namedChain.model.superType? ⟨2⟩ = some ⟨0⟩ := by decide
  have h0 : namedChain.model.superType? ⟨0⟩ = none := rfl
  have hids : namedChain.model.ids = [⟨0⟩, ⟨1⟩, ⟨2⟩, ⟨3⟩, ⟨4⟩, ⟨5⟩] := rfl
  simp [Model.superclasses, depthFirst, freshKeys, h4, h2, h0, hids]

theorem overriddenLevels_namedChain : namedChain.overriddenLevels {} ⟨5⟩ = [⟨3⟩, ⟨1⟩] := by
  let target : Overriding := ⟨⟨5⟩, "run", ⟨4⟩, []⟩
  show namedChain.overriddenAbove target ((namedChain.model.superclasses ⟨4⟩).takeWhile fun c =>
    !namedChain.isRoot c) ⟨4⟩ [⟨4⟩] [] = _
  have hroot : [(⟨2⟩ : DeclId), ⟨0⟩].takeWhile (fun c => !namedChain.isRoot c) = [⟨2⟩, ⟨0⟩] := by
    decide
  have hi4 : ∀ seen, namedChain.interfaceClosure ⟨4⟩ seen = [] := by
    intro seen
    have hi : namedChain.interfaces ⟨4⟩ = [] := rfl
    simp [interfaceClosure, depthFirst, freshKeys, hi]
  have hi2 : ∀ seen, namedChain.interfaceClosure ⟨2⟩ seen = [] := by
    intro seen
    have hi : namedChain.interfaces ⟨2⟩ = [] := rfl
    simp [interfaceClosure, depthFirst, freshKeys, hi]
  have hm2 : namedChain.superclassMatches target ⟨2⟩ = [⟨3⟩] := rfl
  have hm0 : namedChain.superclassMatches target ⟨0⟩ = [⟨1⟩] := rfl
  have hmark : namedChain.startsChain [⟨3⟩] = false := rfl
  have hstart : namedChain.startsChain [⟨1⟩] = true := rfl
  rw [superclasses_namedChain, hroot]
  simp [overriddenAbove, hi4, hi2, hm2, hm0, hmark, hstart, addNew]

/-- The nearest overridden method does not get its value through. -/
theorem farthest_value_of_namedChain :
    namedChain.model.Accepted ∧
      namedChain.overriddenMethods ⟨5⟩ = [⟨3⟩, ⟨1⟩] ∧
      ∃ d, namedChain.model.declaration? ⟨5⟩ = some d ∧
        namedChain.valueOn? ⟨⟨5⟩, d⟩ "a.Named" "value" ⟨5⟩ = none ∧
        namedChain.valueOn? ⟨⟨5⟩, d⟩ "a.Named" "value" ⟨3⟩ = some (.str "near") ∧
        namedChain.valueOn? ⟨⟨5⟩, d⟩ "a.Named" "value" ⟨1⟩ = some (.str "far") ∧
        ∃ result, namedChain.build none {} {} ⟨5⟩ = .ok result ∧
          result.metadata.value? "a.Named" "value" = some (.str "far") := by
  have hd : namedChain.model.declaration? ⟨5⟩ = some _ := rfl
  obtain ⟨result, hr, hmd⟩ := exists_build none {} hd .new
  have hv : result.metadata.sourcedValue? "a.Named" "value" = some ⟨.str "far", .inherited⟩ := by
    rw [hmd]
    refine sourcedValue?_of_farthestOverridden? {} accepted_namedChain hd (Or.inl rfl) (by decide)
      rfl ?_
    rw [farthestOverridden?, overriddenLevels_namedChain]
    rfl
  refine ⟨accepted_namedChain, overriddenLevels_namedChain, _, hd, rfl, rfl, rfl, result, hr, ?_⟩
  rw [Metadata.value?, hv]
  rfl

/-- The condition fails for the chain: what is recorded is not the nearest value. -/
theorem build_overridden_values_namedChain :
    ∃ result, namedChain.build none {} {} ⟨5⟩ = .ok result ∧
      result.metadata.sourcedValue? "a.Named" "value" = some ⟨.str "far", .inherited⟩ ∧
      result.metadata.sourcedValue? "a.Named" "value" ≠ some ⟨.str "near", .inherited⟩ := by
  have hd : namedChain.model.declaration? ⟨5⟩ = some _ := rfl
  have ha : namedChain.repeatableContainer? "a.Named" = none := by decide
  have hs : ∀ d, namedChain.valueOn? ⟨⟨5⟩, d⟩ "a.Named" "value" ⟨5⟩ = none := fun _ => rfl
  obtain ⟨-, result, hr, hfar, -⟩ :=
    build_overridden_values {} accepted_namedChain .new none hd (Or.inl rfl) ha (hs _)
  rw [farthestOverridden?, overriddenLevels_namedChain] at hfar
  have hv := hfar (.str "far") rfl
  refine ⟨result, hr, hv, fun hnear => ?_⟩
  rw [hv] at hnear
  simp at hnear

end Environment

end AnnotationResolution
