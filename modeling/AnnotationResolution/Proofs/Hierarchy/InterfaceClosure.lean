import AnnotationResolution.Proofs.Hierarchy.Ancestry
import AnnotationResolution.Proofs.Hierarchy.Bounds

/-!
# What a search for interfaces finds

A search for the interfaces of a type is given the types that it must not come to.  Every type that it
finds joins them at once, also while the search behind it is still going on.  Yet no way is lost by
this: what a type leads to has been found already, or is going to be, as long as the way avoids the
types that were given at the start.  Interfaces may lead in circles, also back to the type itself.

* `closureWithin_size_add_two`: a search that calls itself for every new interface comes to an end.
* `mem_interfaceClosure_iff_avoiding`: it finds what can be reached on a way that avoids those types.
* `interfaceClosure_exact`: what it finds, and in what order.
-/

namespace AnnotationResolution.Environment

variable {env : Environment} {ty k : DeclId} {seen : List DeclId}

/-- **The search comes to an end in any model**, accepted or not. -/
theorem closureWithin_size_add_two (env : Environment) (ty : DeclId) (seen : List DeclId) :
    env.closureWithin (env.model.size + 2) ty seen = some (env.interfaceClosure ty seen) := by
  -- An interface that is no declaration has none of its own, so one level more is enough for these.
  have hunseen : unseen env.model.ids seen ≤ env.model.size := unseen_ids_le env.model seen
  have hlevels : unseen env.model.ids seen + 1 < env.model.size + 2 := by omega
  exact closureWithin_of_unseen_add_lt (fun _ _ _ _ => Nat.one_pos) hlevels ty

/-! ## What is found -/

variable (env) in
def NamesUnseen (seen : List DeclId) (id interface : DeclId) : Prop :=
  env.NamesInterface id interface ∧ interface ∉ seen

theorem leadsAvoiding_interfaces_iff {id : DeclId} :
    LeadsAvoiding env.interfaces seen id k ↔
      Relation.ReflTransGen (env.NamesUnseen seen) id k := by
  have hedge : (fun a b => b ∈ env.interfaces a ∧ b ∉ seen) = env.NamesUnseen seen := by
    funext a b
    exact propext (and_congr_left' mem_interfaces_iff)
  rw [LeadsAvoiding, hedge]

theorem mem_interfaceClosure_iff_avoiding :
    k ∈ env.interfaceClosure ty seen ↔ Relation.TransGen (env.NamesUnseen seen) ty k := by
  rw [interfaceClosure_eq, mem_walkOrder_iff_avoiding env.mem_ids_of_interfaces_ne_nil,
    Relation.TransGen.head'_iff]
  refine exists_congr fun first => ?_
  rw [mem_interfaces_iff, leadsAvoiding_interfaces_iff, ← and_assoc]
  rfl

theorem exists_namesInterface_of_interfaceClosure_eq {earlier later : List DeclId}
    (h : env.interfaceClosure ty seen = earlier ++ k :: later) :
    ∃ p ∈ ty :: earlier, env.NamesInterface p k := by
  rcases exists_edge_of_walkOrder_eq env.mem_ids_of_interfaces_ne_nil h with hk | ⟨p, hp, hk⟩
  · exact ⟨ty, List.mem_cons_self, mem_interfaces_iff.mp hk⟩
  · exact ⟨p, List.mem_cons_of_mem _ hp, mem_interfaces_iff.mp hk⟩

variable (env ty seen) in
/-- **The interfaces that a type leads to** past the types in `seen`, in order. -/
structure IsInterfaceClosure (found : List DeclId) : Prop where
  /-- None is listed twice. -/
  nodup : found.Nodup
  /-- Each step of the way goes by a reference that resolves and is not ignored, and comes to a type
  that is not in `seen`.  Only the type that the way starts from may be. -/
  mem_iff : ∀ k, k ∈ found ↔ Relation.TransGen (env.NamesUnseen seen) ty k
  disjoint : found.Disjoint seen
  /-- Each comes after one that names it, unless the type itself does. -/
  introduced : ∀ earlier k later, found = earlier ++ k :: later →
    ∃ p ∈ ty :: earlier, env.NamesInterface p k

/-- **What a search for interfaces finds.**  It may be made by a search that calls itself for every
new interface, with all that is known by then. -/
theorem interfaceClosure_exact (env : Environment) (ty : DeclId) (seen : List DeclId) :
    env.closureWithin (env.model.size + 2) ty seen = some (env.interfaceClosure ty seen) ∧
      env.IsInterfaceClosure ty seen (env.interfaceClosure ty seen) := by
  obtain ⟨hnodup, hnew⟩ := nodup_freshKeys env.model.ids
    (fun k (_ : Unit) => (env.interfaces k).map (·, ())) ((env.interfaces ty).map (·, ())) seen
  refine ⟨env.closureWithin_size_add_two ty seen, ?_⟩
  exact {
    nodup := hnodup
    mem_iff := fun _ => mem_interfaceClosure_iff_avoiding
    disjoint := hnew
    introduced := fun _ _ _ => exists_namesInterface_of_interfaceClosure_eq }

end AnnotationResolution.Environment
