import Mathlib.Data.List.Basic
import AnnotationResolution.Proofs.DepthFirst

/-!
# The visits of a walk

A walk that follows `edges` visits what was pending and the successors of every key that it found,
and nothing else.  So what it finds does not depend on the order in which it goes about it.

* `mem_freshKeys_iff`: found are the visited keys that were not seen before.
* `depthFirst_perm`, `mem_depthFirst_iff`: visited are the pending pairs and the edges of the keys
  that are found, those of each key once.
* `forall_mem_depthFirst`: what passes along the edges holds of every visit.
* `mem_freshKeys_iff_leads`, `exists_visit_iff_leads`: a walk that has seen nothing finds just what can
  be reached.
* `depthFirst_map_of_closed`, `depthFirst_map`: a walk over renamed keys makes the same visits under
  the new names.
-/

namespace AnnotationResolution

universe u v w

variable {κ κ' : Type u} {π : Type v} {π' : Type w}

/-! ## Renamed keys -/

def Visit.map (f : κ → κ') (g : π → π') (v : Visit κ π) : Visit κ' π' :=
  ⟨f v.key, g v.payload, v.fresh⟩

theorem freshKeys_map (f : κ → κ') (g : π → π') (visits : List (Visit κ π)) :
    freshKeys (visits.map (Visit.map f g)) = (freshKeys visits).map f := by
  rw [freshKeys, freshKeys, List.filter_map, List.map_map, List.map_map]
  rfl

variable [DecidableEq κ] [DecidableEq κ']

/-- **A walk over renamed keys makes the same visits.**  Nothing is asked of the support but that it
holds the same keys, so its order does not matter; and nothing is asked of keys that the walk does
not come to, those without the property `P`. -/
theorem depthFirst_map_of_closed {P : κ → Prop} {f : κ → κ'} (hf : Function.Injective f) (g : π → π')
    {support : List κ} {support' : List κ'} (hs : ∀ k, f k ∈ support' ↔ k ∈ support)
    {next : κ → π → List (κ × π)} {next' : κ' → π' → List (κ' × π')}
    (hclosed : ∀ k p, P k → ∀ pair ∈ next k p, P pair.1)
    (hn : ∀ k p, P k → next' (f k) (g p) = (next k p).map (Prod.map f g)) {pending : List (κ × π)}
    (hp : ∀ pair ∈ pending, P pair.1) (seen : List κ) :
    depthFirst support' next' (pending.map (Prod.map f g)) (seen.map f) =
      (depthFirst support next pending seen).map (Visit.map f g) := by
  have hseen : ∀ k (seen : List κ), f k ∈ seen.map f ↔ k ∈ seen := fun k seen =>
    List.mem_map_of_injective hf
  fun_induction depthFirst support next pending seen with
  | case1 seen => rw [List.map_nil, depthFirst, List.map_nil]
  | case2 k p rest seen hk ih =>
    rw [List.forall_mem_cons] at hp
    rw [List.map_cons, Prod.map_apply, depthFirst, if_pos ((hseen k seen).mpr hk), ih hp.2]
    rfl
  | case3 k p rest seen hk hsupport ih =>
    rw [List.forall_mem_cons] at hp
    have hpending := ih (List.forall_mem_append.mpr ⟨hclosed k p hp.1, hp.2⟩)
    rw [List.map_append, List.map_cons] at hpending
    rw [List.map_cons, Prod.map_apply, depthFirst, if_neg (mt (hseen k seen).mp hk),
      if_pos ((hs k).mpr hsupport), hn k p hp.1, hpending]
    rfl
  | case4 k p rest seen hk hsupport ih =>
    rw [List.forall_mem_cons] at hp
    have hpending := ih hp.2
    rw [List.map_cons] at hpending
    rw [List.map_cons, Prod.map_apply, depthFirst, if_neg (mt (hseen k seen).mp hk),
      if_neg (mt (hs k).mp hsupport), hpending]
    rfl

theorem depthFirst_map {f : κ → κ'} (hf : Function.Injective f) (g : π → π') {support : List κ}
    {support' : List κ'} (hs : ∀ k, f k ∈ support' ↔ k ∈ support) {next : κ → π → List (κ × π)}
    {next' : κ' → π' → List (κ' × π')}
    (hn : ∀ k p, next' (f k) (g p) = (next k p).map (Prod.map f g)) (pending : List (κ × π))
    (seen : List κ) :
    depthFirst support' next' (pending.map (Prod.map f g)) (seen.map f) =
      (depthFirst support next pending seen).map (Visit.map f g) :=
  depthFirst_map_of_closed (P := fun _ => True) hf g hs (fun _ _ _ _ _ => trivial)
    (fun k p _ => hn k p) (fun _ _ => trivial) seen

/-! ## What is found -/

/-- **Found are the visited keys that were not seen before.** -/
theorem mem_freshKeys_iff {support : List κ} {next : κ → π → List (κ × π)}
    {pending : List (κ × π)} {seen : List κ} {k : κ} :
    k ∈ freshKeys (depthFirst support next pending seen) ↔
      k ∉ seen ∧ ∃ v ∈ depthFirst support next pending seen, v.key = k := by
  -- A first visit is fresh and hides the later ones, a visit of a seen key is neither.
  have first : ∀ {seen : List κ} {a : κ} {p : π} {visits : List (Visit κ π)}, a ∉ seen →
      (k ∈ freshKeys visits ↔ k ∉ a :: seen ∧ ∃ v ∈ visits, v.key = k) →
      (k ∈ freshKeys (⟨a, p, true⟩ :: visits) ↔
        k ∉ seen ∧ ∃ v ∈ (⟨a, p, true⟩ : Visit κ π) :: visits, v.key = k) := by
    intro seen a p visits ha ih
    have hcons : freshKeys (⟨a, p, true⟩ :: visits) = a :: freshKeys visits := rfl
    rw [hcons, List.mem_cons, ih, List.exists_mem_cons_iff, List.mem_cons, not_or]
    by_cases hk : k = a
    · subst hk
      simp [ha]
    · simp [hk, Ne.symm hk]
  fun_induction depthFirst support next pending seen with
  | case1 seen => simp [freshKeys]
  | case2 a p rest seen ha ih =>
    rw [List.exists_mem_cons_iff]
    refine ih.trans (and_congr_right fun hk => ?_)
    have hne : a ≠ k := by
      rintro rfl
      exact hk ha
    simp [hne]
  | case3 a p rest seen ha hs ih => exact first ha ih
  | case4 a p rest seen ha hs ih => exact first ha ih

/-- **Visited are the pending pairs and, of each key that is found, the edges once.** -/
theorem depthFirst_perm {support : List κ} {edges : κ → List (κ × π)}
    (hs : ∀ k, edges k ≠ [] → k ∈ support) (pending : List (κ × π)) (seen : List κ) :
    ((depthFirst support (fun k _ => edges k) pending seen).map fun v => (v.key, v.payload)).Perm
      (pending ++
        (freshKeys (depthFirst support (fun k _ => edges k) pending seen)).flatMap edges) := by
  fun_induction depthFirst support (fun k _ => edges k) pending seen with
  | case1 seen => exact .refl []
  | case2 a p rest seen ha ih => exact ih.cons (a, p)
  | case3 a p rest seen ha hsupport ih =>
    have hcons : ∀ visits : List (Visit κ π),
        freshKeys (⟨a, p, true⟩ :: visits) = a :: freshKeys visits := fun _ => rfl
    rw [hcons, List.flatMap_cons, List.map_cons, List.cons_append]
    refine (ih.trans ?_).cons (a, p)
    rw [← List.append_assoc]
    exact List.perm_append_comm.append_right _
  | case4 a p rest seen ha hsupport ih =>
    have hcons : ∀ visits : List (Visit κ π),
        freshKeys (⟨a, p, true⟩ :: visits) = a :: freshKeys visits := fun _ => rfl
    have hedges : edges a = [] := Classical.not_not.mp (mt (hs a) hsupport)
    rw [hcons, List.flatMap_cons, hedges, List.nil_append, List.map_cons, List.cons_append]
    exact ih.cons (a, p)

theorem mem_depthFirst_iff {support : List κ} {edges : κ → List (κ × π)}
    (hs : ∀ k, edges k ≠ [] → k ∈ support) {pending : List (κ × π)} {seen : List κ}
    {pair : κ × π} :
    (∃ v ∈ depthFirst support (fun k _ => edges k) pending seen, (v.key, v.payload) = pair) ↔
      pair ∈ pending ∨
        ∃ k ∈ freshKeys (depthFirst support (fun k _ => edges k) pending seen), pair ∈ edges k := by
  rw [← List.mem_map, (depthFirst_perm hs pending seen).mem_iff, List.mem_append, List.mem_flatMap]

theorem freshKeys_depthFirst (support : List κ) (edges : κ → List (κ × π)) (pending : List (κ × π))
    (seen : List κ) :
    freshKeys (depthFirst support (fun k _ => edges k) pending seen) =
      walkOrder support (fun k => (edges k).map (·.1)) (pending.map (·.1)) seen := by
  have hnext : ∀ k (_ : π), ((edges k).map (·.1)).map (·, ()) =
      (edges k).map (Prod.map id fun _ => ()) := by
    intro k _
    rw [List.map_map]
    rfl
  have hwalk : depthFirst support (fun k (_ : Unit) => ((edges k).map (·.1)).map (·, ()))
      (pending.map (Prod.map id fun _ => ())) (seen.map id) =
        (depthFirst support (fun k _ => edges k) pending seen).map (Visit.map id fun _ => ()) :=
    depthFirst_map Function.injective_id _ (fun _ => Iff.rfl) hnext pending seen
  rw [← List.map_id (freshKeys _), ← freshKeys_map id fun _ => (), ← hwalk, walkOrder, List.map_id,
    List.map_map]
  rfl

/-- What holds of the pending pairs and passes from a pair to those that come next holds of all
visits. -/
theorem forall_mem_depthFirst {support : List κ} {next : κ → π → List (κ × π)}
    {holds : κ → π → Prop} (hnext : ∀ k p, holds k p → ∀ pair ∈ next k p, holds pair.1 pair.2)
    {pending : List (κ × π)} {seen : List κ} (hp : ∀ pair ∈ pending, holds pair.1 pair.2) :
    ∀ v ∈ depthFirst support next pending seen, holds v.key v.payload := by
  fun_induction depthFirst support next pending seen with
  | case1 seen => exact fun _ hv => by cases hv
  | case2 k p rest seen hk ih =>
    rw [List.forall_mem_cons] at hp ⊢
    exact ⟨hp.1, ih hp.2⟩
  | case3 k p rest seen hk hs ih =>
    rw [List.forall_mem_cons] at hp ⊢
    exact ⟨hp.1, ih (List.forall_mem_append.mpr ⟨hnext k p hp.1, hp.2⟩)⟩
  | case4 k p rest seen hk hs ih =>
    rw [List.forall_mem_cons] at hp ⊢
    exact ⟨hp.1, ih hp.2⟩

/-- **Found is what can be reached.**  The edges may lead in circles. -/
theorem mem_freshKeys_iff_leads {support : List κ} {edges : κ → List (κ × π)}
    (hs : ∀ k, edges k ≠ [] → k ∈ support) {pending : List (κ × π)} {k : κ} :
    k ∈ freshKeys (depthFirst support (fun k _ => edges k) pending []) ↔
      ∃ start ∈ pending, Leads (fun k => (edges k).map (·.1)) start.1 k := by
  constructor
  · intro hk
    rw [freshKeys_depthFirst] at hk
    have hs' : ∀ k, (edges k).map (·.1) ≠ [] → k ∈ support :=
      fun k hk => hs k fun hnil => hk (by rw [hnil]; rfl)
    obtain ⟨a, ha, hl⟩ := leads_of_mem_walkOrder hs' hk
    obtain ⟨start, hp, rfl⟩ := List.mem_map.mp ha
    exact ⟨start, hp, hl⟩
  · rintro ⟨start, hp, hl⟩
    -- Nothing was seen before, so every visit makes its key one that is found.
    have hfound : ∀ pair : κ × π, (pair ∈ pending ∨
        ∃ k ∈ freshKeys (depthFirst support (fun k _ => edges k) pending []), pair ∈ edges k) →
        pair.1 ∈ freshKeys (depthFirst support (fun k _ => edges k) pending []) := by
      intro pair hpair
      obtain ⟨v, hv, rfl⟩ := (mem_depthFirst_iff hs).mpr hpair
      exact mem_freshKeys_iff.mpr ⟨List.not_mem_nil, v, hv, rfl⟩
    induction hl with
    | refl => exact hfound start (Or.inl hp)
    | tail _ hedge ih =>
      obtain ⟨pair, hpair, rfl⟩ := List.mem_map.mp hedge
      exact hfound pair (Or.inr ⟨_, ih, hpair⟩)

/-- **Visited is what can be reached**, whatever is carried along: where a walk goes on does not depend
on it. -/
theorem exists_visit_iff_leads {support : List κ} {next : κ → π → List (κ × π)} {edges : κ → List κ}
    (hnext : ∀ k p, (next k p).map (·.1) = edges k) (hs : ∀ k, edges k ≠ [] → k ∈ support)
    {pending : List (κ × π)} {k : κ} :
    (∃ v ∈ depthFirst support next pending [], v.key = k) ↔
      ∃ start ∈ pending, Leads edges start.1 k := by
  have hedges : ∀ k p, (edges k).map (·, ()) = (next k p).map (Prod.map id fun _ => ()) := by
    intro k p
    rw [← hnext k p, List.map_map]
    rfl
  have hwalk : depthFirst support (fun k (_ : Unit) => (edges k).map (·, ()))
      (pending.map (Prod.map id fun _ => ())) [] =
        (depthFirst support next pending []).map (Visit.map id fun _ => ()) :=
    depthFirst_map Function.injective_id _ (fun _ => Iff.rfl) hedges pending []
  have hs' : ∀ k, (edges k).map (·, ()) ≠ [] → k ∈ support :=
    fun k hk => hs k fun hnil => hk (by rw [hnil, List.map_nil])
  have hkeys : (fun k => ((edges k).map (·, ())).map Prod.fst) = edges := by
    funext k
    rw [List.map_map]
    exact List.map_id _
  have hleads : k ∈ freshKeys (depthFirst support (fun k (_ : Unit) => (edges k).map (·, ()))
      (pending.map (Prod.map id fun _ => ())) []) ↔
        ∃ start ∈ pending.map (Prod.map id fun _ => ()), Leads edges start.1 k := by
    rw [mem_freshKeys_iff_leads hs', hkeys]
  rw [hwalk, freshKeys_map, List.map_id, mem_freshKeys_iff, and_iff_right List.not_mem_nil]
    at hleads
  rw [hleads]
  constructor
  · rintro ⟨start, hmem, hl⟩
    obtain ⟨pair, hp, rfl⟩ := List.mem_map.mp hmem
    exact ⟨pair, hp, hl⟩
  · rintro ⟨pair, hp, hl⟩
    exact ⟨_, List.mem_map_of_mem hp, hl⟩

end AnnotationResolution
