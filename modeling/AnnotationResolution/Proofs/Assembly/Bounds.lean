import AnnotationResolution.Proofs.Assembly.Building
import AnnotationResolution.Proofs.Assembly.MetaUses
import AnnotationResolution.Proofs.Hierarchy.Bounds
import AnnotationResolution.Proofs.Reading

/-!
# How far a build goes

A build comes to an end for every declaration that is there, whatever circles there are in the model.
Each of its searches stays within bounds that are known beforehand: the loops along superclasses and
the recursions along interfaces and parents (`Proofs.Hierarchy.Bounds`), the conversion of values
(`Proofs.Reading`), and the search for stereotypes.

The last of these is written here as a recursion that notes which annotation types it looks into.
`stereotypeSearch_eq`: it makes the walk of `metaUses`, and so it looks into no type twice.
-/

namespace AnnotationResolution

/-- What a search for stereotypes has come to. -/
structure StereotypeSearch where
  /-- The annotation types that are not to be looked into again. -/
  passed : List String := []
  /-- Those that were looked into, in order. -/
  entered : List String := []
  /-- The annotations that were met on them. -/
  uses : List MetaUse := []

/-- What a search has come to after the visits of a walk. -/
def StereotypeSearch.after (search : StereotypeSearch) (visits : List (Visit String (Option MetaUse))) :
    StereotypeSearch where
  passed := search.passed ++ freshKeys visits
  entered := search.entered ++ freshKeys visits
  uses := search.uses ++ visits.filterMap Visit.payload

namespace StereotypeSearch

def enter (search : StereotypeSearch) (name : String) : StereotypeSearch :=
  { search with entered := search.entered ++ [name] }

/-- Takes note of a use. -/
def note (search : StereotypeSearch) (use : Option MetaUse) : StereotypeSearch :=
  { search with uses := search.uses ++ use.toList }

def pass (search : StereotypeSearch) (name : String) : StereotypeSearch :=
  { search with passed := search.passed ++ [name] }

theorem filterMap_payload_cons (v : Visit String (Option MetaUse))
    (visits : List (Visit String (Option MetaUse))) :
    (v :: visits).filterMap Visit.payload =
      v.payload.toList ++ visits.filterMap Visit.payload := by
  obtain ⟨key, payload, fresh⟩ := v
  cases payload <;> rfl

theorem after_nil (search : StereotypeSearch) : search.after [] = search := by
  simp [after, freshKeys]

theorem after_cons_old (search : StereotypeSearch) (name : String) (use : Option MetaUse)
    (visits : List (Visit String (Option MetaUse))) :
    search.after (⟨name, use, false⟩ :: visits) = (search.note use).after visits := by
  rw [after, filterMap_payload_cons, ← List.append_assoc]
  rfl

theorem after_cons_new (search : StereotypeSearch) (name : String) (use : Option MetaUse)
    (inner visits : List (Visit String (Option MetaUse))) :
    search.after (⟨name, use, true⟩ :: (inner ++ visits)) =
      ((((search.note use).pass name).enter name).after inner).after visits := by
  have hfresh : freshKeys (⟨name, use, true⟩ :: (inner ++ visits)) =
      [name] ++ (freshKeys inner ++ freshKeys visits) := by
    rw [← freshKeys_append]
    rfl
  rw [after, hfresh, filterMap_payload_cons, List.filterMap_append]
  simp only [after, enter, pass, note, List.append_assoc]

end StereotypeSearch

namespace Environment

/-- Takes note of a use and looks into its annotation type, if that was not passed yet. -/
def visitNext (visit : String → StereotypeSearch → Option StereotypeSearch)
    (search : StereotypeSearch) (edge : String × Option MetaUse) : Option StereotypeSearch :=
  let search := search.note edge.2
  if edge.1 ∈ search.passed then some search else visit edge.1 (search.pass edge.1)

variable (env : Environment)

/-- Looks into an annotation type: takes up the annotations on it one after the other. -/
def visitStereotypes : Nat → String → StereotypeSearch → Option StereotypeSearch
  | 0, _, _ => none
  | levels + 1, name, search =>
    (env.metaEdges name).foldlM (visitNext (visitStereotypes levels)) (search.enter name)

/-- The search from given annotation types, within the given number of levels. -/
def stereotypeSearch (levels : Nat) (names : List String) : Option StereotypeSearch :=
  (names.map (·, none)).foldlM (visitNext (env.visitStereotypes levels)) {}

/-- The part of the walk of `metaUses` that starts from given edges. -/
def metaWalkFrom (pending : List (String × Option MetaUse)) (passed : List String) :
    List (Visit String (Option MetaUse)) :=
  depthFirst env.model.types.names (fun name _ => env.metaEdges name) pending passed

variable {env}

theorem metaWalkFrom_cons_of_mem {name : String} {passed : List String} (h : name ∈ passed)
    (use : Option MetaUse) (rest : List (String × Option MetaUse)) :
    env.metaWalkFrom ((name, use) :: rest) passed =
      ⟨name, use, false⟩ :: env.metaWalkFrom rest passed := by
  rw [metaWalkFrom, depthFirst, if_pos h, metaWalkFrom]

theorem metaWalkFrom_cons_of_notMem {name : String} {passed : List String} (h : name ∉ passed)
    (use : Option MetaUse) (rest : List (String × Option MetaUse)) :
    env.metaWalkFrom ((name, use) :: rest) passed =
      ⟨name, use, true⟩ :: (env.metaWalkFrom (env.metaEdges name) (passed ++ [name]) ++
        env.metaWalkFrom rest (passed ++ [name] ++
          freshKeys (env.metaWalkFrom (env.metaEdges name) (passed ++ [name])))) := by
  have hsame : ∀ k, k ∈ name :: passed ↔ k ∈ passed ++ [name] := by
    intro k
    rw [List.mem_cons, List.mem_append, List.mem_singleton, or_comm]
  rw [metaWalkFrom, depthFirst_cons_of_notMem mem_names_of_metaEdges h, depthFirst_congr hsame,
    depthFirst_append]
  refine congrArg (_ :: _ ++ ·) (depthFirst_congr fun k => ?_)
  rw [List.mem_append, or_comm, ← List.mem_append]
  rfl

/-- Taking up edges one after the other makes the walk from them. -/
theorem foldlM_visitNext {visit : String → StereotypeSearch → Option StereotypeSearch}
    {pending : List (String × Option MetaUse)} {search : StereotypeSearch}
    (hvisit : ∀ edge ∈ pending, edge.1 ∉ search.passed → ∀ known : StereotypeSearch,
      search.passed ⊆ known.passed → edge.1 ∈ known.passed →
        visit edge.1 known = some ((known.enter edge.1).after
          (env.metaWalkFrom (env.metaEdges edge.1) known.passed))) :
    pending.foldlM (visitNext visit) search =
      some (search.after (env.metaWalkFrom pending search.passed)) := by
  induction pending generalizing search with
  | nil =>
    rw [metaWalkFrom, depthFirst, StereotypeSearch.after_nil]
    rfl
  | cons edge rest ih =>
    obtain ⟨name, use⟩ := edge
    rw [List.forall_mem_cons] at hvisit
    rw [List.foldlM_cons, visitNext]
    dsimp only
    by_cases hpassed : name ∈ search.passed
    · rw [metaWalkFrom_cons_of_mem hpassed, StereotypeSearch.after_cons_old, if_pos]
      · exact ih hvisit.2
      · exact hpassed
    · have hsub : search.passed ⊆ ((search.note use).pass name).passed :=
        List.subset_append_left _ _
      rw [metaWalkFrom_cons_of_notMem hpassed, StereotypeSearch.after_cons_new, if_neg]
      · rw [hvisit.1 hpassed _ hsub (List.mem_append_right _ (List.mem_singleton_self name))]
        refine ih fun edge he hnew known hknown => ?_
        have hall : search.passed ⊆ known.passed := fun k hk =>
          hknown (List.mem_append_left _ (hsub hk))
        refine hvisit.2 edge he (fun hold => hnew ?_) known hall
        exact List.mem_append_left _ (hsub hold)
      · exact hpassed

/-- With a level for each type that is not passed yet, one to start with, and one for a name that no
type has. -/
theorem visitStereotypes_eq {levels : Nat} {name : String} {search : StereotypeSearch}
    (hpos : 0 < levels)
    (h : env.metaEdges name ≠ [] → unseen env.model.types.names search.passed + 1 < levels) :
    env.visitStereotypes levels name search =
      some ((search.enter name).after (env.metaWalkFrom (env.metaEdges name) search.passed)) := by
  induction levels generalizing name search with
  | zero => exact absurd hpos (Nat.lt_irrefl 0)
  | succ levels ih =>
    rw [visitStereotypes, foldlM_visitNext]
    · rfl
    · intro edge he hnew known hsub hmem
      have hlevels := h (List.ne_nil_of_mem he)
      refine ih (by omega) fun hedges => ?_
      have hless : unseen env.model.types.names known.passed <
          unseen env.model.types.names search.passed :=
        unseen_lt hsub (mem_names_of_metaEdges hedges) hnew hmem
      omega

/-- **A search for stereotypes looks into no annotation type twice.** -/
theorem stereotypeSearch_eq (names : List String) :
    ∃ search, env.stereotypeSearch (env.model.types.size + 1) names = some search ∧
      search.uses = env.metaUses names ∧ search.entered.Nodup := by
  refine ⟨({} : StereotypeSearch).after (env.metaWalk names), ?_, ?_, ?_⟩
  · rw [stereotypeSearch, foldlM_visitNext]
    · rfl
    · intro edge _ hnew known hsub hmem
      refine visitStereotypes_eq (Nat.succ_pos _) fun hedges => Nat.succ_lt_succ ?_
      have hless : unseen env.model.types.names known.passed < unseen env.model.types.names [] :=
        unseen_lt hsub (mem_names_of_metaEdges hedges) hnew hmem
      have hle : unseen env.model.types.names [] ≤ env.model.types.names.length :=
        unseen_le_length []
      rw [Members.names, List.length_map] at hle
      exact Nat.lt_of_lt_of_le hless hle
  · exact (metaUses_eq names).symm
  · exact (nodup_freshKeys _ _ _ _).1

/-- A build fails only when there is no declaration. -/
theorem exists_build_iff (validator : Option Validator) (cache : DefaultCache)
    (options : BuildOptions) (id : DeclId) :
    (∃ result, env.build validator cache options id = .ok result) ↔
      ∃ d, env.model.declaration? id = some d := by
  cases hd : env.model.declaration? id with
  | none =>
    refine iff_of_false ?_ ?_
    · rintro ⟨result, h⟩
      rw [build, hd] at h
      cases h
    · rintro ⟨d, h⟩
      cases h
  | some d =>
    obtain ⟨result, hr, -, -⟩ := build_eq validator options hd cache
    exact iff_of_true ⟨result, hr⟩ ⟨d, rfl⟩

/-- **No input makes a build go on for ever.**  In an accepted model a build has a result just when
the declaration is there, and the searches end within the steps and levels that they are allowed. -/
theorem build_bounded (hm : env.model.Accepted) :
    (∀ validator cache options id,
      (∃ result, env.build validator cache options id = .ok result) ↔
        ∃ d, env.model.declaration? id = some d) ∧
      (∀ ty d, env.model.declaration? ty = some d →
        env.ancestorsLoop ty env.model.size ty [ty] (env.interfaceClosure ty [ty]) =
          some (env.typeAncestors ty)) ∧
      (∀ method d origin, env.model.declaration? method = some d → d.declaringType = some origin →
        env.overriddenLoop ⟨method, d.name, origin, env.model.parameterTypes method⟩
          env.model.size origin [origin] [origin] [] = some (env.overriddenMethods method)) ∧
      (∀ ty seen, env.closureWithin (env.model.size + 1) ty seen =
        some (env.interfaceClosure ty seen)) ∧
      (∀ origin ancestor, (env.model.bindingsWithin ancestor (env.model.size + 1) origin ∅ []).map
        Prod.fst = some (env.model.typeArguments? origin ancestor)) ∧
      (∀ names, ∃ search, env.stereotypeSearch (env.model.types.size + 1) names = some search ∧
        search.uses = env.metaUses names ∧ search.entered.Nodup) ∧
      (∀ member e, (env.convert 0 member false e).Gives env.config.maxValueDepth
        (env.readValue member (.expr e))) ∧
      ∀ member host, (env.convertHost 0 member false host).Gives env.config.maxValueDepth
        (env.readValue member (.host host)) :=
  ⟨exists_build_iff, fun _ _ => ancestorsLoop_eq hm, fun _ _ _ => overriddenLoop_eq hm,
    closureWithin_eq hm, Model.bindingsWithin_eq, stereotypeSearch_eq, gives_convert_zero,
    gives_convertHost_zero⟩

/-- Superclasses, interfaces, constants and annotation types that lead in circles. -/
def circles : Environment where
  config := {}
  model :=
    { declarations := #[
        ⟨"a.First", none, [⟨"a.Ping", ⟨[("value", .qualified "a.First" "X")]⟩⟩],
          .type { superType := some (.named "a.Second" []), interfaces := [.named "a.Left" []]
                  fields := [⟨4⟩, ⟨5⟩] }⟩,
        ⟨"a.Second", none, [], .type { superType := some (.named "a.First" []) }⟩,
        ⟨"a.Left", none, [], .type { kind := .interface, interfaces := [.named "a.Right" []] }⟩,
        ⟨"a.Right", none, [], .type { kind := .interface, interfaces := [.named "a.Left" []] }⟩,
        ⟨"X", some ⟨0⟩, [],
          .field { isStatic := true, initializer := some (.qualified "a.First" "Y") }⟩,
        ⟨"Y", some ⟨0⟩, [],
          .field { isStatic := true, initializer := some (.qualified "a.First" "X") }⟩,
        ⟨"a.Ping", none, [⟨"a.Pong", ∅⟩], .type { kind := .annotationType }⟩,
        ⟨"a.Pong", none, [⟨"a.Ping", ∅⟩], .type { kind := .annotationType }⟩]
      types := ⟨[("a.First", ⟨0⟩), ("a.Second", ⟨1⟩), ("a.Left", ⟨2⟩), ("a.Right", ⟨3⟩),
        ("a.Ping", ⟨6⟩), ("a.Pong", ⟨7⟩)]⟩ }

theorem accepted_circles : circles.model.Accepted := by
  have hload : Model.ofDeclarations circles.model.declarations.toList = .ok circles.model := rfl
  exact Model.accepted_of_load hload (by decide)

/-- The build of the first class ends, and so do its searches and the reading of its constant. -/
theorem build_bounded_circles :
    (∃ result, circles.build none {} {} ⟨0⟩ = .ok result) ∧
      circles.ancestorsLoop ⟨0⟩ 8 ⟨0⟩ [⟨0⟩] (circles.interfaceClosure ⟨0⟩ [⟨0⟩]) =
        some (circles.typeAncestors ⟨0⟩) ∧
      circles.closureWithin 9 ⟨0⟩ [⟨0⟩] = some (circles.interfaceClosure ⟨0⟩ [⟨0⟩]) ∧
      (∃ search, circles.stereotypeSearch 7 ["a.Ping"] = some search ∧
        search.uses = circles.metaUses ["a.Ping"] ∧ search.entered.Nodup) ∧
      (circles.convert 0 none false (.qualified "a.First" "X")).Gives 32 none := by
  obtain ⟨hbuild, hancestors, -, hclosure, -, hsearch, hconvert, -⟩ := build_bounded accepted_circles
  have hd : circles.model.declaration? ⟨0⟩ = some _ := rfl
  have hread : circles.readValue none (.expr (.qualified "a.First" "X")) = none := by decide
  refine ⟨(hbuild none {} {} ⟨0⟩).mpr ⟨_, hd⟩, hancestors ⟨0⟩ _ hd, hclosure ⟨0⟩ [⟨0⟩],
    hsearch ["a.Ping"], ?_⟩
  have hgives := hconvert none (.qualified "a.First" "X")
  rw [hread] at hgives
  exact hgives

end Environment

end AnnotationResolution
