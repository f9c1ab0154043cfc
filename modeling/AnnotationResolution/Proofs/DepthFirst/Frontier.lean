import AnnotationResolution.Proofs.DepthFirst.Visits

/-!
# Walks that leave nothing out

A walk does not go beyond what it has seen, so it may miss what lies behind.  It misses nothing if the
seen keys have a *frontier*: each of their edges leads to a key that is seen as well, or pending.
Such walks may be made one after the other, each with all that was found before, for what a walk has
found and seen has a frontier again, with nothing pending.

* `mem_walkOrder_iff_visited`: found are the unseen keys that are pending or come after a found one.
* `mem_walkOrder_iff_avoiding`: found is what can be reached on a way that avoids all seen keys.
* `Frontier.mem_walkOrder_iff`: behind a frontier all is found that can be reached.
* `exists_edge_of_walkOrder_eq`: a key is found after one that leads to it, unless it was pending.
-/

namespace AnnotationResolution

universe u

variable {κ : Type u}

/-- The second key can be reached from the first one on a way that comes to no seen key. -/
def LeadsAvoiding (edges : κ → List κ) (seen : List κ) : κ → κ → Prop :=
  Relation.ReflTransGen fun a b => b ∈ edges a ∧ b ∉ seen

theorem LeadsAvoiding.mono {edges : κ → List κ} {seen fewer : List κ} {a k : κ}
    (h : LeadsAvoiding edges seen a k) (hsub : fewer ⊆ seen) : LeadsAvoiding edges fewer a k :=
  Relation.ReflTransGen.mono (fun _ _ hstep => ⟨hstep.1, fun hmem => hstep.2 (hsub hmem)⟩) _ _ h

/-- What the edges of the seen keys lead to is seen as well or pending. -/
def Frontier (edges : κ → List κ) (seen pending : List κ) : Prop :=
  ∀ s ∈ seen, ∀ k ∈ edges s, k ∈ seen ∨ k ∈ pending

theorem Frontier.mono {edges : κ → List κ} {seen pending more : List κ}
    (h : Frontier edges seen pending) (hsub : pending ⊆ more) : Frontier edges seen more :=
  fun s hs k hk => (h s hs k hk).imp_right fun hp => hsub hp

theorem Frontier.mem_of_leads {edges : κ → List κ} {seen : List κ} (h : Frontier edges seen [])
    {a k : κ} (ha : a ∈ seen) (hl : Leads edges a k) : k ∈ seen := by
  induction hl with
  | refl => exact ha
  | tail _ hedge ih => exact (h _ ih _ hedge).resolve_right List.not_mem_nil

variable [DecidableEq κ] {support : List κ} {edges : κ → List κ} {pending seen : List κ} {k : κ}

/-- **Found are the unseen keys that are pending or come after a found one.** -/
theorem mem_walkOrder_iff_visited (hs : ∀ k, edges k ≠ [] → k ∈ support) :
    k ∈ walkOrder support edges pending seen ↔
      k ∉ seen ∧ (k ∈ pending ∨ ∃ p ∈ walkOrder support edges pending seen, k ∈ edges p) := by
  have hs' : ∀ k, (edges k).map (·, ()) ≠ [] → k ∈ support :=
    fun k hk => hs k fun hnil => hk (by rw [hnil, List.map_nil])
  have hkey : (∃ v ∈ depthFirst support (fun k (_ : Unit) => (edges k).map (·, ()))
      (pending.map (·, ())) seen, v.key = k) ↔
      k ∈ pending ∨ ∃ p ∈ walkOrder support edges pending seen, k ∈ edges p := by
    have hvisited : (∃ v ∈ depthFirst support (fun k (_ : Unit) => (edges k).map (·, ()))
        (pending.map (·, ())) seen, (v.key, v.payload) = (k, ())) ↔ _ := mem_depthFirst_iff hs'
    simpa [walkOrder] using hvisited
  rw [walkOrder, mem_freshKeys_iff, hkey]
  rfl

/-- **Found is what can be reached on a way that avoids all seen keys.** -/
theorem mem_walkOrder_iff_avoiding (hs : ∀ k, edges k ≠ [] → k ∈ support) :
    k ∈ walkOrder support edges pending seen ↔
      ∃ a ∈ pending, a ∉ seen ∧ LeadsAvoiding edges seen a k := by
  constructor
  · intro hk
    induction pending, seen using walk_induction hs with
    | nil seen =>
      rw [walkOrder_nil] at hk
      cases hk
    | old a rest seen ha ih =>
      rw [walkOrder_cons_of_mem ha] at hk
      obtain ⟨b, hb, hnew, hl⟩ := ih hk
      exact ⟨b, List.mem_cons_of_mem _ hb, hnew, hl⟩
    | new a rest seen ha ih =>
      rw [walkOrder_cons_of_notMem hs ha] at hk
      rcases List.mem_cons.mp hk with rfl | hk
      · exact ⟨k, List.mem_cons_self, ha, .refl⟩
      · -- What avoids the new key as well avoids what was seen before it.
        obtain ⟨b, hb, hnew, hl⟩ := ih hk
        have hold : LeadsAvoiding edges seen b k := hl.mono (List.subset_cons_self a seen)
        have hunseen : b ∉ seen := fun hmem => hnew (List.mem_cons_of_mem _ hmem)
        rcases List.mem_append.mp hb with hedge | hrest
        · exact ⟨a, List.mem_cons_self, ha, .head ⟨hedge, hunseen⟩ hold⟩
        · exact ⟨b, List.mem_cons_of_mem _ hrest, hunseen, hold⟩
  · rintro ⟨a, ha, hnew, hl⟩
    induction hl with
    | refl => exact (mem_walkOrder_iff_visited hs).mpr ⟨hnew, Or.inl ha⟩
    | tail _ hedge ih => exact (mem_walkOrder_iff_visited hs).mpr ⟨hedge.2, Or.inr ⟨_, ih, hedge.1⟩⟩

theorem Frontier.append_walkOrder (hs : ∀ k, edges k ≠ [] → k ∈ support)
    (h : Frontier edges seen pending) :
    Frontier edges (seen ++ walkOrder support edges pending seen) [] := by
  have hfound : ∀ k, (k ∈ pending ∨ ∃ p ∈ walkOrder support edges pending seen, k ∈ edges p) →
      k ∈ seen ++ walkOrder support edges pending seen := by
    intro k hk
    by_cases hseen : k ∈ seen
    · exact List.mem_append_left _ hseen
    · exact List.mem_append_right _ ((mem_walkOrder_iff_visited hs).mpr ⟨hseen, hk⟩)
  intro s hmem k hk
  refine Or.inl ?_
  rcases List.mem_append.mp hmem with hseen | hwalk
  · rcases h s hseen k hk with hold | hpending
    · exact List.mem_append_left _ hold
    · exact hfound k (Or.inl hpending)
  · exact hfound k (Or.inr ⟨s, hwalk, hk⟩)

/-- **Behind a frontier all is found that can be reached.** -/
theorem Frontier.mem_walkOrder_iff (hs : ∀ k, edges k ≠ [] → k ∈ support)
    (h : Frontier edges seen pending) :
    k ∈ walkOrder support edges pending seen ↔
      k ∉ seen ∧ ∃ a ∈ pending, Leads edges a k := by
  constructor
  · intro hk
    exact ⟨(nodup_freshKeys _ _ _ _).2 k hk, leads_of_mem_walkOrder hs hk⟩
  · rintro ⟨hk, a, ha, hl⟩
    have hstart : a ∈ seen ++ walkOrder support edges pending seen := by
      by_cases hseen : a ∈ seen
      · exact List.mem_append_left _ hseen
      · exact List.mem_append_right _ ((mem_walkOrder_iff_visited hs).mpr ⟨hseen, Or.inl ha⟩)
    exact (List.mem_append.mp ((h.append_walkOrder hs).mem_of_leads hstart hl)).resolve_left hk

/-- **A key is found after one that leads to it, unless it was pending.** -/
theorem exists_edge_of_walkOrder_eq (hs : ∀ k, edges k ≠ [] → k ∈ support) {earlier later : List κ}
    (h : walkOrder support edges pending seen = earlier ++ k :: later) :
    k ∈ pending ∨ ∃ p ∈ earlier, k ∈ edges p := by
  induction pending, seen using walk_induction hs generalizing earlier with
  | nil seen =>
    rw [walkOrder_nil] at h
    simp at h
  | old a rest seen ha ih =>
    rw [walkOrder_cons_of_mem ha] at h
    exact (ih h).imp_left (List.mem_cons_of_mem _)
  | new a rest seen ha ih =>
    rw [walkOrder_cons_of_notMem hs ha] at h
    cases earlier with
    | nil =>
      obtain rfl : a = k := (List.cons.inj h).1
      exact Or.inl List.mem_cons_self
    | cons first earlier =>
      obtain ⟨rfl, hrest⟩ := List.cons.inj h
      -- The successors of the key come first, so they come after it.
      rcases ih hrest with hk | ⟨p, hp, hk⟩
      · rcases List.mem_append.mp hk with hk | hk
        · exact Or.inr ⟨a, List.mem_cons_self, hk⟩
        · exact Or.inl (List.mem_cons_of_mem _ hk)
      · exact Or.inr ⟨p, List.mem_cons_of_mem _ hp, hk⟩

end AnnotationResolution
