/-!
# Lists

What is needed of lists beyond the library: where the items of a list that was read one by one come
from, what is found first in a list of lists, and which item stands where when none is left out.
-/

namespace AnnotationResolution

variable {α β γ : Type}

theorem mem_of_mapM_eq_some {f : α → Option β} {xs : List α} {ys : List β}
    (h : xs.mapM f = some ys) {y : β} (hy : y ∈ ys) : ∃ x ∈ xs, f x = some y := by
  induction xs generalizing ys with
  | nil =>
    cases h
    cases hy
  | cons x rest ih =>
    simp only [List.mapM_cons, bind, Option.bind_eq_some_iff, pure] at h
    obtain ⟨first, hf, others, ho, he⟩ := h
    cases he
    rcases List.mem_cons.mp hy with rfl | hr
    · exact ⟨x, List.mem_cons_self, hf⟩
    · obtain ⟨x', hx, hfx⟩ := ih ho hr
      exact ⟨x', List.mem_cons_of_mem _ hx, hfx⟩

theorem exists_mem_of_mapM_eq_some {f : α → Option β} {xs : List α} {ys : List β}
    (h : xs.mapM f = some ys) {x : α} (hx : x ∈ xs) : ∃ y ∈ ys, f x = some y := by
  induction xs generalizing ys with
  | nil => cases hx
  | cons first rest ih =>
    simp only [List.mapM_cons, bind, Option.bind_eq_some_iff, pure] at h
    obtain ⟨y, hy, others, ho, he⟩ := h
    cases he
    rcases List.mem_cons.mp hx with rfl | hr
    · exact ⟨y, List.mem_cons_self, hy⟩
    · obtain ⟨y', hmem, hfy⟩ := ih ho hr
      exact ⟨y', List.mem_cons_of_mem _ hmem, hfy⟩

/-- What is made of the results may be made of each at once. -/
theorem map_mapM_eq_mapM (f : α → Option β) (g : β → γ) (xs : List α) :
    (xs.mapM f).map (List.map g) = xs.mapM fun x => (f x).map g := by
  induction xs with
  | nil => rfl
  | cons x rest ih =>
    rw [List.mapM_cons, List.mapM_cons, ← ih]
    cases f x <;> cases rest.mapM f <;> rfl

theorem findSome?_flatMap (f : α → List β) (g : β → Option γ) (xs : List α) :
    (xs.flatMap f).findSome? g = xs.findSome? fun x => (f x).findSome? g := by
  induction xs with
  | nil => rfl
  | cons x rest ih =>
    rw [List.flatMap_cons, List.findSome?_append, ih, List.findSome?_cons]
    cases (f x).findSome? g <;> rfl

theorem getElem?_filterMap {f : α → Option β} {xs : List α} (h : ∀ x ∈ xs, ∃ y, f x = some y)
    (i : Nat) : (xs.filterMap f)[i]? = xs[i]?.bind f := by
  induction xs generalizing i with
  | nil => rfl
  | cons x rest ih =>
    rw [List.forall_mem_cons] at h
    obtain ⟨y, hy⟩ := h.1
    rw [List.filterMap_cons_some hy]
    cases i with
    | zero => exact hy.symm
    | succ i => simpa using ih h.2 i

end AnnotationResolution
