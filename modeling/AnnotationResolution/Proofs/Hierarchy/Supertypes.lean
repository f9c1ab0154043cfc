import AnnotationResolution.Proofs.Hierarchy.Ancestry

/-!
# General types before more specific ones

Of the values that the types of a hierarchy give to a member the one of the last type is taken, so a
type should come after the types above it.  Whether it does is a matter of the first way to the more
general type.

* `sublist_typeHierarchy_of_mem_way`: the types on the first way come after it.
* `sublist_typeHierarchy_of_leads`: a type that leads to it by interfaces and is not on the first way
  comes before it.
* `sublist_typeHierarchy_of_onlyAsClass`: so does a superclass that is not on the first way, unless
  it is found as an interface.
-/

namespace AnnotationResolution

/-! ## Supertypes -/

namespace Model

def HasSupertype (m : Model) (sub super : DeclId) : Prop :=
  m.superType? sub = some super ∨ super ∈ m.interfaces sub

/-- No type is above itself. -/
def Acyclic (m : Model) : Prop := ∀ id, ¬ Relation.TransGen m.HasSupertype id id

theorem acyclic_of_decreasing {m : Model}
    (h : ∀ sub super, m.HasSupertype sub super → super.index < sub.index) : m.Acyclic := by
  have habove : ∀ sub super, Relation.TransGen m.HasSupertype sub super →
      super.index < sub.index := by
    intro sub super hs
    induction hs with
    | single hs => exact h _ _ hs
    | tail _ hs ih => exact Nat.lt_trans (h _ _ hs) ih
  exact fun id hid => Nat.lt_irrefl id.index (habove id id hid)

end Model

namespace Environment

variable {env : Environment} {ty general special : DeclId} {way : List DeclId}

theorem mem_interfaces_of_mem {id interface : DeclId} (h : interface ∈ env.interfaces id) :
    interface ∈ env.model.interfaces id := by
  rw [interfaces] at h
  rw [Model.interfaces]
  cases hi : env.model.typeInfo? id with
  | none =>
    rw [hi] at h
    cases h
  | some info =>
    rw [hi] at h
    obtain ⟨ref, hr, hn⟩ := List.mem_filterMap.mp h
    refine List.mem_filterMap.mpr ⟨ref, hr, ?_⟩
    simp only [bind, Option.bind_eq_some_iff] at hn
    obtain ⟨name, href, hn⟩ := hn
    split at hn
    · cases hn
    · rw [href]
      exact hn

theorem noCycle_interfaces (h : env.model.Acyclic) : NoCycle env.interfaces := by
  intro a b hb hl
  have hstep : ∀ sub super, super ∈ env.interfaces sub → env.model.HasSupertype sub super :=
    fun _ _ hs => Or.inr (mem_interfaces_of_mem hs)
  have hback : Relation.ReflTransGen env.model.HasSupertype b a :=
    Relation.ReflTransGen.mono hstep _ _ hl
  exact h a (Relation.TransGen.head' (hstep a b hb) hback)

/-! ## On the first way and off it -/

/-- The way follows the lineage up to the class at which it turns to the interfaces. -/
theorem FirstWay.exists_turn {top : DeclId} {classes : List DeclId}
    (h : env.FirstWay top classes way) :
    ∃ below c above, classes = below ++ c :: above ∧ Leads env.interfaces c top ∧
      ∀ k ∈ below ++ [c], k ∈ way := by
  induction h with
  | @turn c rest path hp =>
    have hc : c ∈ path := by
      cases hp with
      | arrived => exact List.mem_cons_self
      | step => exact List.mem_cons_self
    exact ⟨[], c, rest, rfl, hp.leads, fun k hk => List.mem_singleton.mp hk ▸ hc⟩
  | @up first rest way _ _ ih =>
    obtain ⟨below, c, above, rfl, hl, hway⟩ := ih
    refine ⟨first :: below, c, above, rfl, hl, fun k hk => ?_⟩
    rcases List.mem_cons.mp hk with rfl | hk
    · exact List.mem_cons_self
    · exact List.mem_cons_of_mem _ (hway k hk)

theorem foundAlong_lineage (hcycle : NoCycle env.interfaces)
    (hw : env.FirstWay general (env.lineage ty) way) :
    FoundAlong env.interfaces general way ((env.lineage ty).foldl env.withClass []) :=
  foundAlong_foldl_withClass hcycle hw fun _ hk => by cases hk

variable (env ty special) in
/-- A class of the lineage that is not found as an interface of the others. -/
def OnlyAsClass : Prop :=
  special ∈ env.lineage ty ∧ ∀ c ∈ env.lineage ty, Leads env.interfaces c special → c = special

section

variable {d : Declaration} (hcycle : NoCycle env.interfaces)
  (hd : env.model.declaration? ty = some d) (hn : d.isAnnotationType = false)
  (hw : env.FirstWay general (env.lineage ty) way)

include hcycle hd hn hw

/-- **What lies on the first way to a type comes after it.** -/
theorem sublist_typeHierarchy_of_mem_way (hs : special ∈ way) (hne : special ≠ general) :
    [general, special].Sublist (env.typeHierarchy ty) := by
  rw [typeHierarchy_eq env hd hn]
  exact ((foundAlong_lineage hcycle hw).sublist_of_mem hs hne).reverse

/-- **What leads to a type by interfaces, off the first way, comes before it.** -/
theorem sublist_typeHierarchy_of_leads (hs : special ∈ env.typeHierarchy ty)
    (hl : Leads env.interfaces special general) (hne : special ≠ general) (hoff : special ∉ way) :
    [special, general].Sublist (env.typeHierarchy ty) := by
  rw [typeHierarchy_eq env hd hn] at hs ⊢
  rw [List.mem_reverse] at hs
  exact ((foundAlong_lineage hcycle hw).sublist_of_notMem hs hl hne hoff).reverse

omit hcycle in
/-- **So does a superclass off the first way.**  The way turns below it, and it is found only after
everything that the classes below it lead to. -/
theorem sublist_typeHierarchy_of_onlyAsClass (hs : env.OnlyAsClass ty special)
    (hoff : special ∉ way) : [special, general].Sublist (env.typeHierarchy ty) := by
  obtain ⟨hmem, honly⟩ := hs
  obtain ⟨below, c, above, hsplit, hl, hway⟩ := hw.exists_turn
  obtain ⟨new, hnew⟩ := env.prefix_foldl_withClass above ((below ++ [c]).foldl env.withClass [])
  have hall : (env.lineage ty).foldl env.withClass [] =
      (below ++ [c]).foldl env.withClass [] ++ new := by
    rw [hsplit, ← hnew, ← List.foldl_append, List.append_assoc, List.singleton_append]
  have hgeneral : general ∈ (below ++ [c]).foldl env.withClass [] :=
    mem_foldl_withClass_iff.mpr ⟨c, List.mem_append_right _ List.mem_cons_self, hl⟩
  have hspecial : special ∉ (below ++ [c]).foldl env.withClass [] := by
    intro hfound
    rcases env.leads_of_mem_foldl_withClass hfound with hnil | ⟨k, hk, hlk⟩
    · cases hnil
    · have hlineage : k ∈ env.lineage ty := by
        rw [hsplit, ← List.singleton_append, ← List.append_assoc]
        exact List.mem_append_left _ hk
      exact hoff (honly k hlineage hlk ▸ hway k hk)
  have hlater : special ∈ new := by
    have hfound : special ∈ (env.lineage ty).foldl env.withClass [] :=
      mem_foldl_withClass_iff.mpr ⟨special, hmem, .refl⟩
    rw [hall] at hfound
    exact (List.mem_append.mp hfound).resolve_left hspecial
  rw [typeHierarchy_eq env hd hn, hall]
  have hboth := (List.singleton_sublist.mpr hgeneral).append (List.singleton_sublist.mpr hlater)
  exact hboth.reverse

end

end Environment

end AnnotationResolution
