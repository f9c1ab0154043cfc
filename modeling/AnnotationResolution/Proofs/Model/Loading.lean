import AnnotationResolution.Model.Loading
import AnnotationResolution.Proofs.Members

/-!
# Which declarations load

Declarations load when their types have different names and every reference leads to a declaration
of the right kind.

* `exists_indexTypes_iff`: the index takes in types with new, different names.
* `checkReferences_eq_ok_iff`: the references that are checked are all there are.
* `ofDeclarations_eq_ok_iff`: the model that is loaded, from these two.
-/

namespace AnnotationResolution

theorem forM_cons {α ε : Type} {f : α → Except ε Unit} (x : α) (rest : List α) :
    (x :: rest).forM f = (f x).bind fun _ => rest.forM f :=
  rfl

theorem forM_eq_ok_iff {α ε : Type} {f : α → Except ε Unit} {xs : List α} :
    xs.forM f = .ok () ↔ ∀ x ∈ xs, f x = .ok () := by
  induction xs with
  | nil => exact iff_of_true rfl fun _ hx => by cases hx
  | cons x rest ih =>
    rw [forM_cons, List.forall_mem_cons, ← ih]
    cases f x with
    | error e => exact iff_of_false (fun h => by cases h) fun h => by cases h.1
    | ok u => exact ⟨fun h => ⟨rfl, h⟩, fun h => h.2⟩

namespace Model

theorem mem_ids_iff {m : Model} {id : DeclId} :
    id ∈ m.ids ↔ ∃ d, m.declaration? id = some d := by
  obtain ⟨index⟩ := id
  rw [← Option.isSome_iff_exists]
  simp [ids, size, declaration?]

/-- The names of the types among declarations. -/
def typeNames (declarations : List Declaration) : List String :=
  (declarations.filter Declaration.isType).map Declaration.name

theorem typeNames_cons (d : Declaration) (rest : List Declaration) :
    typeNames (d :: rest) = if d.isType then d.name :: typeNames rest else typeNames rest := by
  rw [typeNames, List.filter_cons]
  split <;> rfl

/-- **The index takes in types with new, different names.** -/
theorem exists_indexTypes_iff {declarations : List Declaration} {next : Nat}
    {index : Members DeclId} :
    (∃ types, indexTypes next index declarations = .ok types) ↔
      (typeNames declarations).Nodup ∧ ∀ name ∈ typeNames declarations, name ∉ index.names := by
  induction declarations generalizing next index with
  | nil => exact iff_of_true ⟨index, rfl⟩ ⟨List.nodup_nil, fun _ hn => by cases hn⟩
  | cons d rest ih =>
    rw [indexTypes, typeNames_cons]
    by_cases ht : d.isType = true
    · rw [if_pos ht, if_pos ht, List.nodup_cons, List.forall_mem_cons]
      by_cases hc : d.name ∈ index.names
      · rw [if_pos (Members.contains_eq_true_iff.mpr hc)]
        exact iff_of_false (fun ⟨_, he⟩ => by cases he) fun hall => hall.2.1 hc
      · rw [if_neg (mt Members.contains_eq_true_iff.mp hc), ih]
        simp only [Members.mem_names_insert, not_or, forall_and]
        -- That no later name is the one just entered says that this one does not come again.
        have hagain : (∀ name ∈ typeNames rest, ¬ name = d.name) ↔ d.name ∉ typeNames rest :=
          ⟨fun hall hd => hall d.name hd rfl, fun hd name hn he => hd (he ▸ hn)⟩
        rw [hagain]
        exact ⟨fun ⟨hr, hi, hd⟩ => ⟨⟨hd, hr⟩, hc, hi⟩, fun ⟨⟨hd, hr⟩, _, hi⟩ => ⟨hr, hi, hd⟩⟩
    · rw [if_neg ht, if_neg ht, ih]

theorem checkReference_eq_ok_iff {m : Model} {owner : DeclId} {reference : DeclId × ElementKind} :
    m.checkReference owner reference = .ok () ↔ m.kind? reference.1 = some reference.2 := by
  rw [checkReference]
  cases m.kind? reference.1 with
  | none => exact iff_of_false (fun h => by cases h) fun h => by cases h
  | some found =>
    dsimp only
    rw [Option.some_inj]
    split
    · next he => exact iff_of_true rfl he
    · next he => exact iff_of_false (fun h => by cases h) he

/-- **The references are in order when each leads to a declaration of its kind.** -/
theorem checkReferences_eq_ok_iff {m : Model} :
    m.checkReferences = .ok () ↔
      ∀ id d, m.declaration? id = some d → ∀ reference ∈ d.references,
        m.kind? reference.1 = some reference.2 := by
  rw [checkReferences, forM_eq_ok_iff]
  constructor
  · intro hall id d hd reference hr
    have hd' := hall id (mem_ids_iff.mpr ⟨d, hd⟩)
    rw [hd] at hd'
    exact checkReference_eq_ok_iff.mp (forM_eq_ok_iff.mp hd' reference hr)
  · intro hall id hid
    obtain ⟨d, hd⟩ := mem_ids_iff.mp hid
    rw [hd]
    exact forM_eq_ok_iff.mpr fun reference hr =>
      checkReference_eq_ok_iff.mpr (hall id d hd reference hr)

/-- **What the loader makes of declarations.** -/
theorem ofDeclarations_eq_ok_iff {declarations : List Declaration} {m : Model} :
    ofDeclarations declarations = .ok m ↔
      indexTypes 0 ∅ declarations = .ok m.types ∧ m.declarations = declarations.toArray ∧
        m.checkReferences = .ok () := by
  simp only [ofDeclarations, bind, Except.bind, pure, Except.pure]
  cases ht : indexTypes 0 ∅ declarations with
  | error e => exact iff_of_false (fun h => by cases h) fun h => by cases h.1
  | ok types =>
    dsimp only
    have hm : (⟨declarations.toArray, types⟩ : Model) = m ↔
        types = m.types ∧ m.declarations = declarations.toArray := by
      obtain ⟨found, index⟩ := m
      rw [Model.mk.injEq, and_comm, eq_comm (a := found)]
    cases hr : (⟨declarations.toArray, types⟩ : Model).checkReferences with
    | error e =>
      refine iff_of_false (fun h => by cases h) fun ⟨htypes, hd, hc⟩ => ?_
      rw [hm.mpr ⟨Except.ok.inj htypes, hd⟩, hc] at hr
      cases hr
    | ok u =>
      dsimp only
      rw [Except.ok.injEq, Except.ok.injEq, hm, ← and_assoc]
      refine (and_iff_left_of_imp fun he => ?_).symm
      rw [← hm.mpr he]
      exact hr

end Model

end AnnotationResolution
