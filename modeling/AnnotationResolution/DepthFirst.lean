/-!
# Depth-first walks

A walk visits keys that carry a payload.  It takes up the pending pairs one by one; a pair whose
key was not seen before is *fresh*, and its successors come next, before the other pending pairs.
`depthFirst` lists all visits in order, also those of keys seen before.

Only keys of a finite `support` have successors, so every walk ends: a fresh visit of the support
leaves fewer keys unseen, any other visit leaves fewer pairs pending.
-/

namespace AnnotationResolution

universe u v

structure Visit (κ : Type u) (π : Type v) where
  key : κ
  payload : π
  fresh : Bool

section Walk

variable {κ : Type u} {π : Type v} [DecidableEq κ]

/-- The number of supported keys not yet seen. -/
def unseen (support seen : List κ) : Nat := (support.filter (· ∉ seen)).length

theorem unseen_cons_lt {support seen : List κ} {k : κ} (hs : k ∈ support) (hk : k ∉ seen) :
    unseen support (k :: seen) < unseen support seen := by
  unfold unseen
  induction support with
  | nil => simp at hs
  | cons a rest ih =>
    have hle : (rest.filter (· ∉ k :: seen)).length ≤ (rest.filter (· ∉ seen)).length := by
      rw [← List.countP_eq_length_filter, ← List.countP_eq_length_filter]
      exact List.countP_mono_left fun x _ hx => by simp_all
    by_cases ha : a = k
    · subst ha
      simp only [List.filter_cons, List.mem_cons, true_or, not_true_eq_false, decide_false,
        Bool.false_eq_true, ↓reduceIte, hk, not_false_eq_true, decide_true, List.length_cons]
      simp only [List.mem_cons] at hle
      omega
    · have hr : k ∈ rest := by simpa [Ne.symm ha] using hs
      have := ih hr
      by_cases hseen : a ∈ seen <;> simp_all

theorem unseen_cons_le (support seen : List κ) (k : κ) :
    unseen support (k :: seen) ≤ unseen support seen := by
  unfold unseen
  rw [← List.countP_eq_length_filter, ← List.countP_eq_length_filter]
  exact List.countP_mono_left fun x _ hx => by simp_all

def depthFirst (support : List κ) (next : κ → π → List (κ × π)) :
    List (κ × π) → List κ → List (Visit κ π)
  | [], _ => []
  | (k, p) :: rest, seen =>
    if k ∈ seen then ⟨k, p, false⟩ :: depthFirst support next rest seen
    else if k ∈ support then
      ⟨k, p, true⟩ :: depthFirst support next (next k p ++ rest) (k :: seen)
    else ⟨k, p, true⟩ :: depthFirst support next rest (k :: seen)
termination_by pending seen => (unseen support seen, pending.length)
decreasing_by
  · exact Prod.Lex.right _ (Nat.lt_succ_self _)
  · exact Prod.Lex.left _ _ (unseen_cons_lt ‹_› ‹_›)
  · rcases Nat.lt_or_eq_of_le (unseen_cons_le support seen k) with h | h
    · exact Prod.Lex.left _ _ h
    · rw [h]
      exact Prod.Lex.right _ (Nat.lt_succ_self _)

/-- The keys of the fresh visits, in order. -/
def freshKeys (visits : List (Visit κ π)) : List κ :=
  (visits.filter Visit.fresh).map Visit.key

/-- **No key is fresh twice, and none that was seen before is fresh.** -/
theorem nodup_freshKeys (support : List κ) (next : κ → π → List (κ × π)) (pending : List (κ × π))
    (seen : List κ) :
    (freshKeys (depthFirst support next pending seen)).Nodup ∧
      ∀ k ∈ freshKeys (depthFirst support next pending seen), k ∉ seen := by
  fun_induction depthFirst support next pending seen with
  | case1 => simp [freshKeys]
  | case2 seen k p rest hk ih => simpa [freshKeys] using ih
  | case3 seen k p rest hk hs ih =>
    obtain ⟨hnd, hout⟩ := ih
    refine ⟨List.nodup_cons.mpr ⟨fun h => hout _ h List.mem_cons_self, hnd⟩, fun a ha => ?_⟩
    rcases List.mem_cons.mp ha with rfl | h
    · exact hk
    · exact fun hm => hout a h (List.mem_cons_of_mem _ hm)
  | case4 seen k p rest hk hs ih =>
    obtain ⟨hnd, hout⟩ := ih
    refine ⟨List.nodup_cons.mpr ⟨fun h => hout _ h List.mem_cons_self, hnd⟩, fun a ha => ?_⟩
    rcases List.mem_cons.mp ha with rfl | h
    · exact hk
    · exact fun hm => hout a h (List.mem_cons_of_mem _ hm)

end Walk

end AnnotationResolution
