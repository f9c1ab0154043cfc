import AnnotationResolution.Proofs.DepthFirst

/-!
# Walks in parts

A walk keeps its pending pairs in one list.  A search that calls itself for the successors of a key
makes the same visits: the pending pairs may be walked part by part, each part with what the parts
before it have found (`depthFirst_append`), and which keys were seen matters, not in what order
(`depthFirst_congr`).

Such a search goes down one level for each new key of the support, so no deeper than there are keys
that were not seen: `unseen_lt` and `unseen_le_of_subset` count the levels that are left.
-/

namespace AnnotationResolution

universe u v

variable {κ : Type u} {π : Type v}

theorem freshKeys_append (visits more : List (Visit κ π)) :
    freshKeys (visits ++ more) = freshKeys visits ++ freshKeys more := by
  rw [freshKeys, List.filter_append, List.map_append]
  rfl

variable [DecidableEq κ] {support : List κ}

/-! ## Levels that are left -/

theorem unseen_le_of_subset {seen more : List κ} (h : seen ⊆ more) :
    unseen support more ≤ unseen support seen := by
  rw [unseen, unseen, ← List.countP_eq_length_filter, ← List.countP_eq_length_filter]
  refine List.countP_mono_left fun k _ hk => ?_
  rw [decide_eq_true_iff] at hk ⊢
  exact fun hs => hk (h hs)

theorem unseen_lt {seen more : List κ} (h : seen ⊆ more) {k : κ} (hs : k ∈ support)
    (hk : k ∉ seen) (hm : k ∈ more) : unseen support more < unseen support seen :=
  calc
    unseen support more ≤ unseen support (k :: seen) :=
      unseen_le_of_subset (List.cons_subset.mpr ⟨hm, h⟩)
    _ < unseen support seen := unseen_cons_lt hs hk

theorem unseen_le_length (seen : List κ) : unseen support seen ≤ support.length :=
  List.length_filter_le _ _

/-! ## Parts of a walk -/

variable {next : κ → π → List (κ × π)}

/-- The order in which keys were seen does not matter. -/
theorem depthFirst_congr {pending : List (κ × π)} {seen known : List κ}
    (h : ∀ k, k ∈ seen ↔ k ∈ known) :
    depthFirst support next pending seen = depthFirst support next pending known := by
  have hcons : ∀ {seen known : List κ} (a : κ), (∀ k, k ∈ seen ↔ k ∈ known) →
      ∀ k, k ∈ a :: seen ↔ k ∈ a :: known := by
    intro seen known a h k
    rw [List.mem_cons, List.mem_cons, h]
  fun_induction depthFirst support next pending seen generalizing known with
  | case1 => rw [depthFirst]
  | case2 k p rest seen hk ih => rw [depthFirst, if_pos ((h k).mp hk), ih h]
  | case3 k p rest seen hk hs ih =>
    rw [depthFirst, if_neg (mt (h k).mpr hk), if_pos hs, ih (hcons k h)]
  | case4 k p rest seen hk hs ih =>
    rw [depthFirst, if_neg (mt (h k).mpr hk), if_neg hs, ih (hcons k h)]

/-- **Pending pairs may be walked part by part.** -/
theorem depthFirst_append (pending more : List (κ × π)) (seen : List κ) :
    depthFirst support next (pending ++ more) seen =
      depthFirst support next pending seen ++
        depthFirst support next more
          (freshKeys (depthFirst support next pending seen) ++ seen) := by
  have hfresh : ∀ (k : κ) (p : π) (visits : List (Visit κ π)) (seen : List κ),
      depthFirst support next more (freshKeys visits ++ k :: seen) =
        depthFirst support next more (freshKeys (⟨k, p, true⟩ :: visits) ++ seen) := by
    intro k p visits seen
    have hcons : freshKeys (⟨k, p, true⟩ :: visits) = k :: freshKeys visits := rfl
    rw [hcons]
    refine depthFirst_congr fun other => ?_
    simp only [List.mem_append, List.mem_cons]
    rw [or_assoc, or_left_comm]
  fun_induction depthFirst support next pending seen with
  | case1 seen => rfl
  | case2 k p rest seen hk ih =>
    rw [List.cons_append, depthFirst, if_pos hk, ih, List.cons_append]
    rfl
  | case3 k p rest seen hk hs ih =>
    rw [List.cons_append, depthFirst, if_neg hk, if_pos hs, ← List.append_assoc, ih, hfresh k p,
      List.cons_append]
  | case4 k p rest seen hk hs ih =>
    rw [List.cons_append, depthFirst, if_neg hk, if_neg hs, ih, hfresh k p, List.cons_append]

/-- A new key is left for its successors, and these are walked before the rest. -/
theorem depthFirst_cons_of_notMem {k : κ} {p : π} (hs : next k p ≠ [] → k ∈ support)
    {seen : List κ} (hk : k ∉ seen) (rest : List (κ × π)) :
    depthFirst support next ((k, p) :: rest) seen =
      ⟨k, p, true⟩ :: depthFirst support next (next k p ++ rest) (k :: seen) := by
  rw [depthFirst, if_neg hk]
  by_cases hsupport : k ∈ support
  · rw [if_pos hsupport]
  · have hnil : next k p = [] := Classical.not_not.mp (mt hs hsupport)
    rw [if_neg hsupport, hnil, List.nil_append]

section

variable {edges : κ → List κ}

theorem walkOrder_congr {pending seen known : List κ} (h : ∀ k, k ∈ seen ↔ k ∈ known) :
    walkOrder support edges pending seen = walkOrder support edges pending known := by
  rw [walkOrder, depthFirst_congr h, walkOrder]

theorem walkOrder_append (pending more seen : List κ) :
    walkOrder support edges (pending ++ more) seen =
      walkOrder support edges pending seen ++
        walkOrder support edges more (walkOrder support edges pending seen ++ seen) := by
  rw [walkOrder, List.map_append, depthFirst_append, freshKeys_append]
  rfl

end

end AnnotationResolution
