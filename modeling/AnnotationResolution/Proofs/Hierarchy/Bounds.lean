import AnnotationResolution.Proofs.DepthFirst.Parts
import AnnotationResolution.Proofs.Hierarchy.Superclasses

/-!
# How far one goes in a hierarchy

Superclasses and interfaces may lead in circles, so a search has to know where it has been.  Here the
searches are written as loops and as recursions that give up when they have used up the steps or
levels they were allowed.  In an accepted model of `n` declarations they never do:

* `ancestorsLoop_eq`, `overriddenLoop_eq`: a loop along the superclasses of a declaration takes at
  most `n` steps;
* `closureWithin_eq`: a search for interfaces calls itself no deeper than `n + 1` levels;
* `bindingsWithin_eq`: nor does a search for type arguments.
-/

namespace AnnotationResolution

/-! ## Along the superclasses -/

namespace Model

variable {m : Model}

theorem length_ids (m : Model) : m.ids.length = m.size := by
  rw [ids, List.length_map, List.length_range]

theorem Accepted.mem_ids_of_typeNamed? (hm : m.Accepted) {name : String} {id : DeclId}
    (h : m.typeNamed? name = some id) : id ∈ m.ids := by
  obtain ⟨d, hd, -, -⟩ := hm.typeNamed?_eq_some_iff.mp h
  exact mem_ids_iff.mpr ⟨d, hd⟩

/-- **There are fewer superclasses than declarations.** -/
theorem Accepted.length_superclasses_lt (hm : m.Accepted) {id : DeclId} {d : Declaration}
    (hd : m.declaration? id = some d) : (m.superclasses id).length < m.size := by
  have hnodup : (id :: m.superclasses id).Nodup :=
    List.nodup_cons.mpr ⟨notMem_superclasses id, (nodup_freshKeys _ _ _ _).1⟩
  have hsubset : id :: m.superclasses id ⊆ m.ids := by
    intro k hk
    rcases List.mem_cons.mp hk with rfl | hk
    · exact mem_ids_iff.mpr ⟨d, hd⟩
    · obtain ⟨below, hbelow⟩ := exists_superType?_of_mem_superclasses hk
      obtain ⟨name, hname⟩ := exists_typeNamed?_of_superType? hbelow
      exact hm.mem_ids_of_typeNamed? hname
  have hlength := (hnodup.subperm hsubset).length_le
  rwa [length_ids] at hlength

end Model

namespace Environment

variable (env : Environment)

/-- The ancestors of a type, found in a loop along its superclasses: one step for each type of which
the superclass is looked up. -/
def ancestorsLoop (ty : DeclId) :
    Nat → DeclId → List DeclId → List DeclId → Option (List DeclId)
  | 0, _, _, _ => none
  | steps + 1, current, passed, ancestors =>
    match env.model.superType? current with
    | none => some ancestors
    | some superclass =>
      if superclass ∈ passed then some ancestors
      else
        ancestorsLoop ty steps superclass (superclass :: passed)
          (env.addSuperclass ty ancestors superclass)

def overriddenLoop (target : Overriding) :
    Nat → DeclId → List DeclId → List DeclId → List DeclId → Option (List DeclId)
  | 0, _, _, _, _ => none
  | steps + 1, current, passed, seen, found =>
    let interfaces := env.interfaceClosure current seen
    let found := (interfaces.flatMap (env.interfaceMatches target)).foldl addNew found
    match env.model.superType? current with
    | none => some found
    | some superclass =>
      if superclass ∈ passed ∨ env.isRoot superclass = true then some found
      else
        let here := env.superclassMatches target superclass
        let found := here.foldl addNew found
        if env.startsChain here then some found
        else
          overriddenLoop target steps superclass (superclass :: passed) (seen ++ interfaces) found

variable {env}

theorem ancestorsLoop_eq_foldl (ty : DeclId) {steps : Nat} {current : DeclId}
    {passed : List DeclId} (h : (env.model.superclassesAbove current passed).length < steps)
    (ancestors : List DeclId) :
    env.ancestorsLoop ty steps current passed ancestors =
      some ((env.model.superclassesAbove current passed).foldl (env.addSuperclass ty) ancestors) := by
  induction steps generalizing current passed ancestors with
  | zero => exact absurd h (Nat.not_lt_zero _)
  | succ steps ih =>
    rw [ancestorsLoop]
    cases hs : env.model.superType? current with
    | none =>
      rw [Model.superclassesAbove_of_none hs]
      rfl
    | some superclass =>
      by_cases hp : superclass ∈ passed
      · rw [Model.superclassesAbove_of_mem hs hp]
        exact if_pos hp
      · rw [Model.superclassesAbove_of_notMem hs hp, List.length_cons] at h
        rw [Model.superclassesAbove_of_notMem hs hp, List.foldl_cons]
        exact (if_neg hp).trans (ih (Nat.lt_of_succ_lt_succ h) _)

theorem overriddenLoop_eq_overriddenAbove (target : Overriding) {steps : Nat} {current : DeclId}
    {passed : List DeclId} (h : (env.model.superclassesAbove current passed).length < steps)
    (seen found : List DeclId) :
    env.overriddenLoop target steps current passed seen found =
      some (env.overriddenAbove target
        ((env.model.superclassesAbove current passed).takeWhile fun c => !env.isRoot c)
        current seen found) := by
  induction steps generalizing current passed seen found with
  | zero => exact absurd h (Nat.not_lt_zero _)
  | succ steps ih =>
    rw [overriddenLoop]
    cases hs : env.model.superType? current with
    | none =>
      rw [Model.superclassesAbove_of_none hs, List.takeWhile_nil, overriddenAbove]
    | some superclass =>
      by_cases hp : superclass ∈ passed
      · rw [Model.superclassesAbove_of_mem hs hp, List.takeWhile_nil, overriddenAbove]
        exact if_pos (Or.inl hp)
      · rw [Model.superclassesAbove_of_notMem hs hp, List.length_cons] at h
        rw [Model.superclassesAbove_of_notMem hs hp, List.takeWhile_cons]
        by_cases hr : env.isRoot superclass = true
        · rw [hr, Bool.not_true, if_neg Bool.false_ne_true, overriddenAbove]
          exact if_pos (Or.inr hr)
        · rw [Bool.eq_false_iff.mpr hr, Bool.not_false, if_pos rfl, overriddenAbove]
          dsimp only
          rw [if_neg (not_or.mpr ⟨hp, hr⟩)]
          split
          · rfl
          · exact ih (Nat.lt_of_succ_lt_succ h) _ _

/-- **The loop to the ancestors takes at most one step for each declaration.** -/
theorem ancestorsLoop_eq (hm : env.model.Accepted) {ty : DeclId} {d : Declaration}
    (hd : env.model.declaration? ty = some d) :
    env.ancestorsLoop ty env.model.size ty [ty] (env.interfaceClosure ty [ty]) =
      some (env.typeAncestors ty) :=
  ancestorsLoop_eq_foldl ty (hm.length_superclasses_lt hd) _

/-- **So does the loop to the overridden methods.** -/
theorem overriddenLoop_eq (hm : env.model.Accepted) {method origin : DeclId} {d : Declaration}
    (hd : env.model.declaration? method = some d) (ho : d.declaringType = some origin) :
    env.overriddenLoop ⟨method, d.name, origin, env.model.parameterTypes method⟩ env.model.size
      origin [origin] [origin] [] = some (env.overriddenMethods method) := by
  obtain ⟨o, ho', -⟩ := Model.isType_iff.mp (hm.isType_of_declaringType hd ho)
  rw [overriddenLoop_eq_overriddenAbove _ (hm.length_superclasses_lt ho'), overriddenMethods, hd]
  dsimp only
  rw [ho]
  rfl

/-! ## Interfaces -/

/-- Takes in an interface of a type, with what a search finds above it. -/
def closureStep (search : DeclId → List DeclId → Option (List DeclId)) (seen found : List DeclId)
    (interface : DeclId) : Option (List DeclId) :=
  if interface ∈ seen ∨ interface ∈ found then some found
  else
    let found := found ++ [interface]
    (search interface (seen ++ found)).map (found ++ ·)

variable (env) in
/-- The interfaces that are reachable from a type and not known yet, found by a search that calls
itself for every new interface, within the given number of levels. -/
def closureWithin : Nat → DeclId → List DeclId → Option (List DeclId)
  | 0, _, _ => none
  | levels + 1, ty, seen =>
    (env.interfaces ty).foldlM (closureStep (closureWithin levels) seen) []

theorem mem_ids_of_mem_interfaces (hm : env.model.Accepted) {ty interface : DeclId}
    (h : interface ∈ env.interfaces ty) : interface ∈ env.model.ids := by
  obtain ⟨name, hname⟩ := env.exists_typeNamed?_of_mem_interfaces h
  exact hm.mem_ids_of_typeNamed? hname

variable (env) in
theorem foldlM_closureStep {search : DeclId → List DeclId → Option (List DeclId)}
    {seen : List DeclId} {pending : List DeclId}
    (hsearch : ∀ interface ∈ pending, interface ∉ seen → ∀ known, seen ⊆ known →
      interface ∈ known → search interface known = some (env.interfaceClosure interface known))
    (found : List DeclId) :
    pending.foldlM (closureStep search seen) found =
      some (found ++ walkOrder env.model.ids env.interfaces pending (found ++ seen)) := by
  induction pending generalizing found with
  | nil =>
    rw [walkOrder_nil, List.append_nil]
    rfl
  | cons interface rest ih =>
    rw [List.forall_mem_cons] at hsearch
    rw [List.foldlM_cons, closureStep]
    by_cases hknown : interface ∈ seen ∨ interface ∈ found
    · rw [if_pos hknown, walkOrder_cons_of_mem (List.mem_append.mpr hknown.symm)]
      exact ih hsearch.2 found
    · have hnew : interface ∉ found ++ seen := fun hmem => hknown (List.mem_append.mp hmem).symm
      have hnested : search interface (seen ++ (found ++ [interface])) =
          some (walkOrder env.model.ids env.interfaces (env.interfaces interface)
            (interface :: (found ++ seen))) := by
        rw [hsearch.1 (fun hs => hknown (Or.inl hs)) _ (List.subset_append_left _ _) (by simp),
          interfaceClosure_eq]
        refine congrArg some (walkOrder_congr fun k => ?_)
        simp only [List.mem_append, List.mem_cons, List.not_mem_nil, or_false]
        tauto
      have hrest : ∀ nested : List DeclId,
          walkOrder env.model.ids env.interfaces rest (found ++ [interface] ++ nested ++ seen) =
            walkOrder env.model.ids env.interfaces rest
              (nested ++ interface :: (found ++ seen)) := by
        refine fun nested => walkOrder_congr fun k => ?_
        simp only [List.mem_append, List.mem_cons, List.not_mem_nil, or_false]
        tauto
      rw [if_neg hknown]
      dsimp only
      rw [hnested, Option.map_some]
      refine (ih hsearch.2 _).trans ?_
      rw [hrest, walkOrder_cons_of_notMem env.mem_ids_of_interfaces_ne_nil hnew, walkOrder_append,
        List.append_assoc, List.append_assoc, List.singleton_append]

/-- With a level for each declaration that is not known yet, one to start with, and one more if there
are interfaces that are no declarations. -/
theorem closureWithin_of_unseen_add_lt {extra levels : Nat} {seen : List DeclId}
    (hextra : ∀ ty, ∀ interface ∈ env.interfaces ty, interface ∉ env.model.ids → 0 < extra)
    (h : unseen env.model.ids seen + extra < levels) (ty : DeclId) :
    env.closureWithin levels ty seen = some (env.interfaceClosure ty seen) := by
  induction levels generalizing seen ty with
  | zero => exact absurd h (Nat.not_lt_zero _)
  | succ levels ih =>
    rw [closureWithin, foldlM_closureStep env, List.nil_append]
    · rfl
    · intro interface hi hnew known hsub hknown
      by_cases hids : interface ∈ env.model.ids
      · have hless : unseen env.model.ids known < unseen env.model.ids seen :=
          unseen_lt hsub hids hnew hknown
        exact ih (by omega) interface
      · -- Such an interface leads nowhere, so the next level is the last one.
        have hnone : env.interfaces interface = [] :=
          Classical.not_not.mp (mt (env.mem_ids_of_interfaces_ne_nil interface) hids)
        have hpos : 0 < extra := hextra ty interface hi hids
        obtain ⟨rest, rfl⟩ : ∃ rest, levels = rest + 1 := ⟨levels - 1, by omega⟩
        rw [closureWithin, interfaceClosure_eq, hnone, walkOrder_nil]
        rfl

theorem unseen_ids_le (m : Model) (seen : List DeclId) : unseen m.ids seen ≤ m.size := by
  rw [← m.length_ids]
  exact unseen_le_length seen

/-- **A search for interfaces calls itself no deeper than one level for each declaration and one
more.** -/
theorem closureWithin_eq (hm : env.model.Accepted) (ty : DeclId) (seen : List DeclId) :
    env.closureWithin (env.model.size + 1) ty seen = some (env.interfaceClosure ty seen) := by
  have hextra : ∀ ty, ∀ interface ∈ env.interfaces ty, interface ∉ env.model.ids → 0 < 0 :=
    fun _ _ hi hids => absurd (mem_ids_of_mem_interfaces hm hi) hids
  exact closureWithin_of_unseen_add_lt hextra (Nat.lt_succ_of_le (unseen_ids_le env.model seen)) ty

end Environment

/-! ## Type arguments -/

namespace Model

abbrev BindingSearch := Option Substitution × List DeclId

/-- Searches from one parent after the other, until the target is found. -/
def searchParents (search : DeclId → Substitution → List DeclId → Option BindingSearch) :
    List (DeclId × Substitution) → List DeclId → Option BindingSearch
  | [], passed => some (none, passed)
  | (parent, bindings) :: rest, passed =>
    (search parent bindings passed).bind fun result =>
      match result with
      | (some found, passed) => some (some found, passed)
      | (none, passed) => searchParents search rest passed

/-- What the type parameters of `target` are, found by a search that calls itself for every parent
of a type, within the given number of levels. -/
def bindingsWithin (m : Model) (target : DeclId) :
    Nat → DeclId → Substitution → List DeclId → Option BindingSearch
  | 0, _, _, _ => none
  | levels + 1, current, bindings, passed =>
    if current = target then some (some bindings, passed)
    else if current ∈ passed then some (none, passed)
    else
      searchParents (m.bindingsWithin target levels) (m.boundParents current bindings)
        (current :: passed)

variable {m : Model} {target : DeclId}

def targetVisit? (target : DeclId) (visits : List (Visit DeclId Substitution)) :
    Option Substitution :=
  (visits.find? (·.key = target)).map Visit.payload

/-- A search does what a walk does up to the first visit of the target. -/
def FollowsWalk (target : DeclId) (visits : List (Visit DeclId Substitution))
    (passed : List DeclId) (result : Option BindingSearch) : Prop :=
  ∃ after, result = some (targetVisit? target visits, after) ∧
    (targetVisit? target visits = none → ∀ k, k ∈ after ↔ k ∈ freshKeys visits ∨ k ∈ passed)

theorem mem_ids_of_boundParents_ne_nil {id : DeclId} {bindings : Substitution}
    (h : m.boundParents id bindings ≠ []) : id ∈ m.ids := by
  rw [boundParents] at h
  split at h
  · exact absurd rfl h
  · next info hi => exact mem_ids_of_typeInfo? hi

theorem targetVisit?_append (visits more : List (Visit DeclId Substitution)) :
    targetVisit? target (visits ++ more) =
      (targetVisit? target visits).or (targetVisit? target more) := by
  rw [targetVisit?, List.find?_append, Option.map_or]
  rfl

/-- The parents are walked one after the other, each with what those before it have passed. -/
theorem followsWalk_searchParents
    {search : DeclId → Substitution → List DeclId → Option BindingSearch}
    {pending : List (DeclId × Substitution)} {passed : List DeclId}
    (hsearch : ∀ parent bindings, (parent, bindings) ∈ pending → ∀ known, passed ⊆ known →
      FollowsWalk target (depthFirst m.ids m.boundParents [(parent, bindings)] known) known
        (search parent bindings known)) :
    FollowsWalk target (depthFirst m.ids m.boundParents pending passed) passed
      (searchParents search pending passed) := by
  induction pending generalizing passed with
  | nil =>
    rw [depthFirst]
    exact ⟨passed, rfl, fun _ k => (or_iff_right List.not_mem_nil).symm⟩
  | cons pair rest ih =>
    obtain ⟨parent, bindings⟩ := pair
    obtain ⟨after, hr, hafter⟩ :=
      hsearch parent bindings List.mem_cons_self passed (List.Subset.refl _)
    have hwalk : depthFirst m.ids m.boundParents ((parent, bindings) :: rest) passed = _ :=
      depthFirst_append [(parent, bindings)] rest passed
    rw [hwalk, searchParents, hr, Option.bind_some]
    cases hfound : targetVisit? target (depthFirst m.ids m.boundParents [(parent, bindings)] passed)
      with
    | some found =>
      refine ⟨after, ?_, fun hnone => ?_⟩
      · rw [targetVisit?_append, hfound, Option.some_or]
      · rw [targetVisit?_append, hfound, Option.some_or] at hnone
        cases hnone
    | none =>
      have hknown := hafter hfound
      have hsame : ∀ k, k ∈ after ↔ k ∈ freshKeys
          (depthFirst m.ids m.boundParents [(parent, bindings)] passed) ++ passed := by
        intro k
        rw [hknown, List.mem_append]
      have hrest := ih fun p b hp known hsub =>
        hsearch p b (List.mem_cons_of_mem _ hp) known fun k hk =>
          hsub ((hknown k).mpr (Or.inr hk))
      rw [depthFirst_congr hsame] at hrest
      obtain ⟨after', hr', hafter'⟩ := hrest
      refine ⟨after', ?_, fun hnone k => ?_⟩
      · rw [targetVisit?_append, hfound, Option.none_or]
        exact hr'
      · rw [targetVisit?_append, hfound, Option.none_or] at hnone
        rw [hafter' hnone, hknown, freshKeys_append, List.mem_append]
        tauto

/-- With a level for each declaration that was not passed yet, and one to start with. -/
theorem followsWalk_bindingsWithin (target : DeclId) {levels : Nat} {passed : List DeclId}
    (h : unseen m.ids passed < levels) (current : DeclId) (bindings : Substitution) :
    FollowsWalk target (depthFirst m.ids m.boundParents [(current, bindings)] passed) passed
      (m.bindingsWithin target levels current bindings passed) := by
  induction levels generalizing passed current bindings with
  | zero => exact absurd h (Nat.not_lt_zero _)
  | succ levels ih =>
    rw [bindingsWithin]
    by_cases htarget : current = target
    · -- The first visit is that of the target, whether it was passed or not.
      have hfound : targetVisit? target
          (depthFirst m.ids m.boundParents [(current, bindings)] passed) = some bindings := by
        rw [depthFirst]
        split
        · simp [targetVisit?, htarget]
        · split <;> simp [targetVisit?, htarget]
      rw [if_pos htarget]
      refine ⟨passed, by rw [hfound], fun hnone => ?_⟩
      rw [hfound] at hnone
      cases hnone
    · rw [if_neg htarget]
      by_cases hpassed : current ∈ passed
      · rw [if_pos hpassed, depthFirst, if_pos hpassed, depthFirst]
        refine ⟨passed, by simp [targetVisit?, htarget], fun _ k => ?_⟩
        exact (or_iff_right List.not_mem_nil).symm
      · rw [if_neg hpassed, depthFirst_cons_of_notMem mem_ids_of_boundParents_ne_nil hpassed,
          List.append_nil]
        have hparents : FollowsWalk target
            (depthFirst m.ids m.boundParents (m.boundParents current bindings) (current :: passed))
            (current :: passed) (searchParents (m.bindingsWithin target levels)
              (m.boundParents current bindings) (current :: passed)) := by
          refine followsWalk_searchParents fun parent b hp known hsub => ih ?_ parent b
          have hids : current ∈ m.ids := mem_ids_of_boundParents_ne_nil (List.ne_nil_of_mem hp)
          have hless : unseen m.ids known < unseen m.ids passed :=
            unseen_lt (fun k hk => hsub (List.mem_cons_of_mem _ hk)) hids hpassed
              (hsub List.mem_cons_self)
          omega
        obtain ⟨after, hr, hafter⟩ := hparents
        have hfirst : ∀ visits, targetVisit? target (⟨current, bindings, true⟩ :: visits) =
            targetVisit? target visits := by
          intro visits
          rw [targetVisit?, List.find?_cons_of_neg (by simpa using htarget), targetVisit?]
        refine ⟨after, by rw [hfirst, hr], fun hnone k => ?_⟩
        rw [hfirst] at hnone
        have hfresh : ∀ visits : List (Visit DeclId Substitution),
            freshKeys (⟨current, bindings, true⟩ :: visits) = current :: freshKeys visits :=
          fun _ => rfl
        rw [hafter hnone, hfresh, List.mem_cons, List.mem_cons]
        tauto

/-- **A search for type arguments calls itself no deeper than one level for each declaration and one
more.** -/
theorem bindingsWithin_eq (origin target : DeclId) :
    (m.bindingsWithin target (m.size + 1) origin ∅ []).map Prod.fst =
      some (m.typeArguments? origin target) := by
  have hle : unseen m.ids [] ≤ m.ids.length := unseen_le_length []
  rw [length_ids] at hle
  obtain ⟨after, hr, -⟩ :=
    followsWalk_bindingsWithin target (Nat.lt_succ_of_le hle) origin ∅
  rw [hr]
  rfl

end Model

end AnnotationResolution
