import AnnotationResolution.Proofs.Assembly.Collected
import AnnotationResolution.Proofs.Defaults
import AnnotationResolution.Proofs.Hierarchy.Levels

/-!
# What a build returns

A build of a declaration that is there returns its metadata, and these are the same for every cache
that was used with this model and configuration only: `exists_build`.  Such a cache is sound, since
a build does no more to it than to look names up (`sound_of_usedWith`).

The look-ups `get?_annotations_metadataOf` and `get?_repeated_metadataOf` lead from an entry of the
metadata to what was collected for it, whatever defaults are filled in; the names are those that were
collected.
-/

namespace AnnotationResolution

/-- A cache that is new, or that was used with one model and configuration only. -/
inductive DefaultCache.UsedWith (env : Environment) : DefaultCache → Prop
  | new : DefaultCache.UsedWith env {}
  | lookedUp {cache : DefaultCache} (h : DefaultCache.UsedWith env cache) (name : String) :
      DefaultCache.UsedWith env (cache.ensure env name)
  | built {cache : DefaultCache} {validator : Option Validator} {options : BuildOptions}
      {id : DeclId} {result : BuildResult} (h : DefaultCache.UsedWith env cache)
      (hb : env.build validator cache options id = .ok result) :
      DefaultCache.UsedWith env result.cache

namespace Environment

variable {env : Environment}

/-- Only the defaults of the names that are needed matter. -/
theorem metadataOf_congr {assembly : Assembly} {f g : String → Members Value}
    (h : ∀ name ∈ env.neededDefaults assembly, f name = g name) :
    env.metadataOf f assembly = env.metadataOf g assembly := by
  simp only [neededDefaults, List.mem_append] at h
  rw [metadataOf, metadataOf, Metadata.mk.injEq]
  refine ⟨Members.mapNamed_congr fun name hn pending => ?_,
    Members.mapNamed_congr fun name hn pending => ?_,
    Members.mapNamed_congr fun name hn pending => ?_⟩
  · rw [entryOf, entryOf, h name (Or.inl (Or.inl hn))]
  · rw [repeatedOf, repeatedOf, h name (Or.inl (Or.inr hn))]
  · rw [stereotypeOf, stereotypeOf, h name (Or.inr hn)]

variable (env) in
/-- The metadata of a declaration, with all defaults at hand. -/
def metadata (options : BuildOptions) (target : BuildTarget) : Metadata :=
  env.metadataOf env.namedDefaults (env.assemble options target)

variable {id : DeclId} {d : Declaration} (validator : Option Validator) (options : BuildOptions)

theorem build_eq (hd : env.model.declaration? id = some d) (cache : DefaultCache) :
    ∃ result, env.build validator cache options id = .ok result ∧
      result.cache =
        (env.neededDefaults (env.assemble options ⟨id, d⟩)).foldl (DefaultCache.ensure env) cache ∧
      result.metadata =
        env.metadataOf (result.cache.defaultsOf env) (env.assemble options ⟨id, d⟩) := by
  rw [build, hd]
  exact ⟨_, rfl, rfl, rfl⟩

theorem diagnostics_of_build (hd : env.model.declaration? id = some d) {cache : DefaultCache}
    {result : BuildResult} (h : env.build validator cache options id = .ok result) :
    result.diagnostics =
      validator.elim [] (env.diagnosticsOf · id (env.assemble options ⟨id, d⟩)) := by
  rw [build, hd] at h
  obtain rfl := Except.ok.inj h
  cases validator <;> rfl

theorem build_of_sound (hd : env.model.declaration? id = some d) {cache : DefaultCache}
    (h : DefaultCache.Sound env cache) :
    ∃ result, env.build validator cache options id = .ok result ∧
      DefaultCache.Sound env result.cache ∧ result.metadata = env.metadata options ⟨id, d⟩ := by
  obtain ⟨result, hr, hc, hm⟩ := build_eq validator options hd cache
  refine ⟨result, hr, hc ▸ h.foldl_ensure _, ?_⟩
  rw [hm, metadata]
  refine metadataOf_congr fun name hn => ?_
  rw [hc]
  exact DefaultCache.defaultsOf_foldl_ensure h hn

theorem sound_of_usedWith {cache : DefaultCache} (h : cache.UsedWith env) :
    DefaultCache.Sound env cache := by
  induction h with
  | new => exact DefaultCache.sound_empty
  | lookedUp _ name ih => exact ih.ensure name
  | @built cache validator options id result _ hb ih =>
    cases hd : env.model.declaration? id with
    | none =>
      rw [build, hd] at hb
      cases hb
    | some d =>
      obtain ⟨result', hr, hs, -⟩ := build_of_sound validator options hd ih
      obtain rfl : result' = result := Except.ok.inj (hr.symm.trans hb)
      exact hs

/-- **A declaration that is there has metadata, whatever the cache was used for before.** -/
theorem exists_build (hd : env.model.declaration? id = some d) {cache : DefaultCache}
    (h : cache.UsedWith env) :
    ∃ result, env.build validator cache options id = .ok result ∧
      result.metadata = env.metadata options ⟨id, d⟩ := by
  obtain ⟨result, hr, -, hm⟩ := build_of_sound validator options hd (sound_of_usedWith h)
  exact ⟨result, hr, hm⟩

/-! ## Entries of the metadata -/

variable (target : BuildTarget)

theorem names_annotations_metadataOf (defaults : String → Members Value) :
    (env.metadataOf defaults (env.assemble options target)).annotations.names =
      (env.collectAll (env.occurrences options target)).annotations.names :=
  Members.names_mapNamed _ _

theorem names_repeated_metadataOf (defaults : String → Members Value) :
    (env.metadataOf defaults (env.assemble options target)).repeated.names =
      (env.collectAll (env.occurrences options target)).repeated.names :=
  Members.names_mapNamed _ _

/-- The names in the metadata are those of the occurrences. -/
theorem mem_annotationNames_metadataOf {name : String} (defaults : String → Members Value) :
    name ∈ (env.metadataOf defaults (env.assemble options target)).annotationNames ↔
      ∃ o ∈ env.occurrences options target, o.applied.annotationType = name := by
  rw [Metadata.annotationNames, names_annotations_metadataOf, names_repeated_metadataOf,
    mem_names_collectAll]

theorem get?_annotations_metadataOf (defaults : String → Members Value) (name : String) :
    (env.metadataOf defaults (env.assemble options target)).annotations.get? name =
      ((env.collectAll (env.occurrences options target)).annotations.get? name).map
        (env.entryOf defaults name) :=
  Members.get?_mapNamed _ _ name

theorem get?_repeated_metadataOf (defaults : String → Members Value) (name : String) :
    (env.metadataOf defaults (env.assemble options target)).repeated.get? name =
      ((env.collectAll (env.occurrences options target)).repeated.get? name).map
        (env.repeatedOf defaults name) :=
  Members.get?_mapNamed _ _ name

theorem get?_annotations_metadata (name : String) :
    (env.metadata options target).annotations.get? name =
      ((env.collectAll (env.occurrences options target)).annotations.get? name).map
        (env.entryOf env.namedDefaults name) :=
  get?_annotations_metadataOf options target env.namedDefaults name

theorem get?_repeated_metadata (name : String) :
    (env.metadata options target).repeated.get? name =
      ((env.collectAll (env.occurrences options target)).repeated.get? name).map
        (env.repeatedOf env.namedDefaults name) :=
  get?_repeated_metadataOf options target env.namedDefaults name

/-! ## A sample -/

/-- A class and its interface.  What the class gives to `value` of `a.Named` does not convert, and
neither of them gives anything to `scope`.  The class holds two applications of `a.Role` in a
container and one beside it, the interface one more. -/
def service : Environment where
  config := {}
  model :=
    { declarations := #[
        ⟨"a.Named", none, [],
          .type { kind := .annotationType, methods := [⟨1⟩, ⟨2⟩, ⟨3⟩], resolved := true }⟩,
        ⟨"value", some ⟨0⟩, [], .method {}⟩,
        ⟨"order", some ⟨0⟩, [], .method {}⟩,
        ⟨"scope", some ⟨0⟩, [], .method { defaultValue := some (.str "app") }⟩,
        ⟨"a.Role", none,
          [⟨"java.lang.annotation.Repeatable",
            ⟨[("value", .typeLiteral (.named "a.Roles" []))]⟩⟩],
          .type { kind := .annotationType, methods := [⟨5⟩, ⟨6⟩], resolved := true }⟩,
        ⟨"value", some ⟨4⟩, [], .method {}⟩,
        ⟨"level", some ⟨4⟩, [], .method { defaultValue := some (.str "low") }⟩,
        ⟨"a.Roles", none, [], .type { kind := .annotationType }⟩,
        ⟨"a.Base", none,
          [⟨"a.Named", ⟨[("value", .literal (.str "base")), ("order", .literal (.int 1))]⟩⟩,
            ⟨"a.Role", ⟨[("value", .literal (.str "guest"))]⟩⟩],
          .type { kind := .interface }⟩,
        ⟨"a.Service", none,
          [⟨"a.Named", ⟨[("value", .unsupported "name()"), ("order", .literal (.int 2))]⟩⟩,
            ⟨"a.Roles", ⟨[("value", .list [
              .nested ⟨"a.Role", ⟨[("value", .literal (.str "user"))]⟩⟩,
              .nested ⟨"a.Role",
                ⟨[("level", .literal (.str "high")), ("value", .literal (.str "admin"))]⟩⟩])]⟩⟩,
            ⟨"a.Role", ⟨[("value", .literal (.str "owner"))]⟩⟩],
          .type { interfaces := [.named "a.Base" []] }⟩]
      types := ⟨[("a.Named", ⟨0⟩), ("a.Role", ⟨4⟩), ("a.Roles", ⟨7⟩), ("a.Base", ⟨8⟩),
        ("a.Service", ⟨9⟩)]⟩ }

theorem accepted_service : service.model.Accepted := by
  have hload : Model.ofDeclarations service.model.declarations.toList = .ok service.model := rfl
  exact Model.accepted_of_load hload (by decide)

theorem levels_service : service.levels {} ⟨9⟩ = [⟨8⟩, ⟨9⟩] := by
  have hd : service.model.declaration? ⟨9⟩ = some _ := rfl
  have hi : service.interfaces ⟨9⟩ = [⟨8⟩] := by decide
  exact levels_of_interfaces hd rfl rfl rfl hi (by decide) (by decide)

end Environment

end AnnotationResolution
