import Mathlib.Logic.Relation
import AnnotationResolution.DepthFirst

/-!
# The order of a depth-first walk

A walk over a relation that is given by ordered lists of successors (`edges`).  `walkOrder` lists the
keys it finds, in the order of their first visits.

What decides which of two keys is found first?  From a key on, the *first path* to `top` goes always
to the first successor from which `top` can be reached (`FirstPath`).  Where no key reaches itself,
the walk finds `top` along this very path: of the keys that lead to `top`, just those on the path
are found before it (`FoundAlong`).

* `exists_firstPath`: a key that leads to `top` has a first path.
* `leads_of_mem_walkOrder`: nothing is found but what can be reached.
* `foundAlong_walkOrder`: the walk finds `top` along the first path.
-/

namespace AnnotationResolution

universe u

variable {κ : Type u}

/-- The second key can be reached from the first one. -/
def Leads (edges : κ → List κ) : κ → κ → Prop :=
  Relation.ReflTransGen fun a b => b ∈ edges a

/-- No key can be reached from one of its successors. -/
def NoCycle (edges : κ → List κ) : Prop := ∀ a, ∀ b ∈ edges a, ¬ Leads edges b a

/-- The path to `top` that goes always to the first successor from which `top` can be reached. -/
inductive FirstPath (edges : κ → List κ) (top : κ) : κ → List κ → Prop
  | arrived : FirstPath edges top top [top]
  | step {k next : κ} {before after path : List κ} (hk : k ≠ top)
      (he : edges k = before ++ next :: after) (hb : ∀ other ∈ before, ¬ Leads edges other top)
      (hp : FirstPath edges top next path) : FirstPath edges top k (k :: path)

section

variable {edges : κ → List κ} {top : κ}

theorem Leads.of_edge {a b c : κ} (hb : b ∈ edges a) (hc : Leads edges b c) : Leads edges a c :=
  Relation.ReflTransGen.head hb hc

theorem FirstPath.leads {k : κ} {path : List κ} (h : FirstPath edges top k path) :
    Leads edges k top := by
  induction h with
  | arrived => exact .refl
  | step hk he hb hp ih => exact .of_edge (by simp [he]) ih

/-- The first of the keys that lead to `top`. -/
theorem exists_first_of_leads {keys : List κ} (h : ∃ k ∈ keys, Leads edges k top) :
    ∃ before k after, keys = before ++ k :: after ∧ (∀ other ∈ before, ¬ Leads edges other top) ∧
      Leads edges k top := by
  induction keys with
  | nil =>
    obtain ⟨k, hk, -⟩ := h
    cases hk
  | cons first rest ih =>
    by_cases hf : Leads edges first top
    · exact ⟨[], first, rest, rfl, by simp, hf⟩
    · obtain ⟨k, hk, hl⟩ := h
      have hr : k ∈ rest := by
        rcases List.mem_cons.mp hk with rfl | hr
        · exact absurd hl hf
        · exact hr
      obtain ⟨before, next, after, he, hb, hn⟩ := ih ⟨k, hr, hl⟩
      refine ⟨first :: before, next, after, by rw [he, List.cons_append], ?_, hn⟩
      intro other ho
      rcases List.mem_cons.mp ho with rfl | ho
      · exact hf
      · exact hb other ho

end

/-! ## What is found before a key -/

/-- In a list of keys `top` is found along a path: what comes before it and leads to it lies on the
path, and the other keys of the path all come before it. -/
def FoundAlong (edges : κ → List κ) (top : κ) (path order : List κ) : Prop :=
  ∃ earlier later, order = earlier ++ top :: later ∧ (∀ k ∈ path, k = top ∨ k ∈ earlier) ∧
    ∀ k ∈ earlier, Leads edges k top → k ∈ path

namespace FoundAlong

variable {edges : κ → List κ} {top : κ} {path order : List κ}

theorem head (later : List κ) : FoundAlong edges top [top] (top :: later) :=
  ⟨[], later, rfl, by simp, by simp⟩

theorem step (h : FoundAlong edges top path order) (k : κ) :
    FoundAlong edges top (k :: path) (k :: order) := by
  obtain ⟨earlier, later, rfl, hpath, hearlier⟩ := h
  refine ⟨k :: earlier, later, rfl, fun a ha => ?_, fun a ha hl => ?_⟩
  · rcases List.mem_cons.mp ha with rfl | ha
    · exact Or.inr List.mem_cons_self
    · exact (hpath a ha).imp_right (List.mem_cons_of_mem _)
  · rcases List.mem_cons.mp ha with rfl | ha
    · exact List.mem_cons_self
    · exact List.mem_cons_of_mem _ (hearlier a ha hl)

/-- Keys that do not lead to `top` may come before all others. -/
theorem prepend (h : FoundAlong edges top path order) {front : List κ}
    (hf : ∀ k ∈ front, ¬ Leads edges k top) : FoundAlong edges top path (front ++ order) := by
  obtain ⟨earlier, later, rfl, hpath, hearlier⟩ := h
  refine ⟨front ++ earlier, later, by rw [List.append_assoc], fun a ha => ?_, fun a ha hl => ?_⟩
  · exact (hpath a ha).imp_right (List.mem_append_right _)
  · rcases List.mem_append.mp ha with ha | ha
    · exact absurd hl (hf a ha)
    · exact hearlier a ha hl

theorem append (h : FoundAlong edges top path order) (rest : List κ) :
    FoundAlong edges top path (order ++ rest) := by
  obtain ⟨earlier, later, rfl, hpath, hearlier⟩ := h
  exact ⟨earlier, later ++ rest, by rw [List.append_assoc, List.cons_append], hpath, hearlier⟩

/-- A key that is found early, among keys that do not lead to `top`, may be put in front of the
path. -/
theorem cons_of_mem_front {front rest : List κ} (h : FoundAlong edges top path (front ++ rest))
    (hf : ∀ k ∈ front, ¬ Leads edges k top) {k : κ} (hk : k ∈ front) :
    FoundAlong edges top (k :: path) (front ++ rest) := by
  obtain ⟨earlier, later, he, hpath, hearlier⟩ := h
  have hmem : k ∈ earlier := by
    rcases List.append_eq_append_iff.mp he with ⟨more, rfl, -⟩ | ⟨more, hfront, htop⟩
    · exact List.mem_append_left _ hk
    · cases more with
      | nil => simpa [hfront] using hk
      | cons first more =>
        -- Otherwise `top` would be one of the keys in front.
        obtain rfl : first = top := by simpa using (List.cons.inj htop).1.symm
        exact absurd .refl (hf first (by simp [hfront]))
  refine ⟨earlier, later, he, fun a ha => ?_, fun a ha hl => ?_⟩
  · rcases List.mem_cons.mp ha with rfl | ha
    · exact Or.inr hmem
    · exact hpath a ha
  · exact List.mem_cons_of_mem _ (hearlier a ha hl)

/-- **What lies on the path comes before `top`.** -/
theorem sublist_of_mem (h : FoundAlong edges top path order) {k : κ} (hk : k ∈ path)
    (hne : k ≠ top) : [k, top].Sublist order := by
  obtain ⟨earlier, later, rfl, hpath, -⟩ := h
  have hmem : k ∈ earlier := (hpath k hk).resolve_left hne
  exact (List.singleton_sublist.mpr hmem).append
    (List.singleton_sublist.mpr List.mem_cons_self)

/-- **What leads to `top` off the path comes after it.** -/
theorem sublist_of_notMem (h : FoundAlong edges top path order) {k : κ} (hk : k ∈ order)
    (hl : Leads edges k top) (hne : k ≠ top) (hp : k ∉ path) : [top, k].Sublist order := by
  obtain ⟨earlier, later, rfl, -, hearlier⟩ := h
  have hmem : k ∈ later := by
    rcases List.mem_append.mp hk with hk | hk
    · exact absurd (hearlier k hk hl) hp
    · exact (List.mem_cons.mp hk).resolve_left hne
  exact ((List.singleton_sublist.mpr hmem).cons_cons top).trans (List.sublist_append_right _ _)

end FoundAlong

/-! ## The first path -/

variable [DecidableEq κ] {support : List κ} {edges : κ → List κ} {top : κ}

/-- **What leads to `top` has a first path.**  The keys passed on the way never come again, so the
path ends within the support. -/
theorem exists_firstPath (hs : ∀ k, edges k ≠ [] → k ∈ support) (hc : NoCycle edges) {k : κ}
    (h : Leads edges k top) : ∃ path, FirstPath edges top k path := by
  have passing : ∀ (passed : List κ) (k : κ), (∀ a ∈ passed, ∃ b ∈ edges a, Leads edges b k) →
      Leads edges k top → ∃ path, FirstPath edges top k path := by
    intro passed
    induction hn : unseen support passed using Nat.strongRecOn generalizing passed with
    | ind n ih =>
      intro k hpassed hk
      by_cases ht : k = top
      · exact ⟨[top], ht ▸ .arrived⟩
      · have hnext : ∃ b ∈ edges k, Leads edges b top := by
          rcases Relation.ReflTransGen.cases_head hk with rfl | ⟨b, hb, hl⟩
          · exact absurd rfl ht
          · exact ⟨b, hb, hl⟩
        obtain ⟨before, next, after, he, hb, hl⟩ := exists_first_of_leads hnext
        have hmem : next ∈ edges k := by simp [he]
        have hfresh : k ∉ passed := fun hp => by
          obtain ⟨b, hb, hbk⟩ := hpassed k hp
          exact hc k b hb hbk
        have hsupport : k ∈ support := hs k (List.ne_nil_of_mem hmem)
        have hpassed' : ∀ a ∈ k :: passed, ∃ b ∈ edges a, Leads edges b next := by
          intro a ha
          rcases List.mem_cons.mp ha with rfl | ha
          · exact ⟨next, hmem, .refl⟩
          · obtain ⟨b, hb, hbk⟩ := hpassed a ha
            exact ⟨b, hb, hbk.tail hmem⟩
        obtain ⟨path, hp⟩ :=
          ih _ (hn ▸ unseen_cons_lt hsupport hfresh) (k :: passed) rfl next hpassed' hl
        exact ⟨k :: path, .step ht he hb hp⟩
  exact passing [] k (by simp) h

/-! ## The keys that a walk finds -/

variable (support edges) in
/-- The keys that a walk finds from the pending ones, in the order of their first visits. -/
def walkOrder (pending seen : List κ) : List κ :=
  freshKeys (depthFirst support (fun k (_ : Unit) => (edges k).map (·, ())) (pending.map (·, ()))
    seen)

theorem walkOrder_nil (seen : List κ) : walkOrder support edges [] seen = [] := by
  simp [walkOrder, depthFirst, freshKeys]

theorem walkOrder_cons_of_mem {k : κ} {seen : List κ} (h : k ∈ seen) (rest : List κ) :
    walkOrder support edges (k :: rest) seen = walkOrder support edges rest seen := by
  simp [walkOrder, depthFirst, freshKeys, h]

theorem walkOrder_cons_of_notMem (hs : ∀ k, edges k ≠ [] → k ∈ support) {k : κ} {seen : List κ}
    (h : k ∉ seen) (rest : List κ) :
    walkOrder support edges (k :: rest) seen =
      k :: walkOrder support edges (edges k ++ rest) (k :: seen) := by
  by_cases hk : k ∈ support
  · simp [walkOrder, depthFirst, freshKeys, h, hk]
  · have he : edges k = [] := Classical.not_not.mp (mt (hs k) hk)
    simp [walkOrder, depthFirst, freshKeys, h, hk, he]

/-- A walk that does not get any further finds what is pending. -/
theorem walkOrder_eq_self {pending seen : List κ} (he : ∀ k ∈ pending, edges k = [])
    (hnodup : pending.Nodup) (hseen : ∀ k ∈ pending, k ∉ seen) :
    walkOrder support edges pending seen = pending := by
  induction pending generalizing seen with
  | nil => exact walkOrder_nil seen
  | cons k rest ih =>
    obtain ⟨hk, hrest⟩ := List.nodup_cons.mp hnodup
    obtain ⟨hek, her⟩ := List.forall_mem_cons.mp he
    obtain ⟨hnew, hsr⟩ := List.forall_mem_cons.mp hseen
    have hfound : walkOrder support edges rest (k :: seen) = rest := by
      refine ih her hrest fun other ho hold => ?_
      rcases List.mem_cons.mp hold with rfl | hold
      · exact hk ho
      · exact hsr other ho hold
    by_cases hsupport : k ∈ support
    · simpa [walkOrder, depthFirst, freshKeys, hnew, hsupport, hek] using hfound
    · simpa [walkOrder, depthFirst, freshKeys, hnew, hsupport] using hfound

/-- The recursion of a walk as an induction: a key seen before is passed over, and a new one is
replaced by its successors. -/
theorem walk_induction (hs : ∀ k, edges k ≠ [] → k ∈ support) {motive : List κ → List κ → Prop}
    (nil : ∀ seen, motive [] seen)
    (old : ∀ k rest seen, k ∈ seen → motive rest seen → motive (k :: rest) seen)
    (new : ∀ k rest seen, k ∉ seen → motive (edges k ++ rest) (k :: seen) →
      motive (k :: rest) seen) (pending seen : List κ) : motive pending seen := by
  have walked : ∀ (pairs : List (κ × Unit)) (seen : List κ),
      motive (pairs.map (·.1)) seen := by
    intro pairs seen
    induction pairs, seen using
        depthFirst.induct support (fun k (_ : Unit) => (edges k).map (·, ())) with
    | case1 seen => exact nil seen
    | case2 k p rest seen hk ih => exact old k _ seen hk ih
    | case3 k p rest seen hk hsup ih =>
      refine new k _ seen hk ?_
      simpa [Function.comp_def] using ih
    | case4 k p rest seen hk hsup ih =>
      refine new k _ seen hk ?_
      have he : edges k = [] := Classical.not_not.mp (mt (hs k) hsup)
      simpa [he] using ih
  simpa [Function.comp_def] using walked (pending.map (·, ())) seen

theorem leads_of_mem_walkOrder (hs : ∀ k, edges k ≠ [] → k ∈ support) {pending seen : List κ}
    {k : κ} (hk : k ∈ walkOrder support edges pending seen) : ∃ a ∈ pending, Leads edges a k := by
  induction pending, seen using walk_induction hs with
  | nil seen =>
    rw [walkOrder_nil] at hk
    cases hk
  | old a rest seen ha ih =>
    rw [walkOrder_cons_of_mem ha] at hk
    obtain ⟨b, hb, hl⟩ := ih hk
    exact ⟨b, List.mem_cons_of_mem _ hb, hl⟩
  | new a rest seen ha ih =>
    rw [walkOrder_cons_of_notMem hs ha] at hk
    rcases List.mem_cons.mp hk with rfl | hk
    · exact ⟨k, List.mem_cons_self, .refl⟩
    · obtain ⟨b, hb, hl⟩ := ih hk
      rcases List.mem_append.mp hb with hb | hb
      · exact ⟨a, List.mem_cons_self, .of_edge hb hl⟩
      · exact ⟨b, List.mem_cons_of_mem _ hb, hl⟩

/-- **The walk finds `top` along the first path.** -/
theorem foundAlong_walkOrder (hs : ∀ k, edges k ≠ [] → k ∈ support) (hc : NoCycle edges)
    {before after path seen : List κ} {start : κ}
    (hbefore : ∀ other ∈ before, ¬ Leads edges other top) (hpath : FirstPath edges top start path)
    (hseen : ∀ s ∈ seen, Leads edges start s → ¬ Leads edges s top) :
    FoundAlong edges top path (walkOrder support edges (before ++ start :: after) seen) := by
  generalize hpending : before ++ start :: after = pending
  induction pending, seen using walk_induction hs generalizing before after path start with
  | nil seen => simp at hpending
  | old k rest seen hk ih =>
    rw [walkOrder_cons_of_mem hk]
    cases before with
    | nil =>
      -- The start itself is not seen, for it leads to `top`.
      obtain ⟨rfl, rfl⟩ : start = k ∧ after = rest := by simpa using hpending
      exact absurd hpath.leads (hseen start hk .refl)
    | cons first before =>
      obtain ⟨rfl, hrest⟩ : first = k ∧ before ++ start :: after = rest := by simpa using hpending
      exact ih (fun other ho => hbefore other (List.mem_cons_of_mem _ ho)) hpath hseen hrest
  | new k rest seen hk ih =>
    rw [walkOrder_cons_of_notMem hs hk]
    cases before with
    | cons first before =>
      -- The walk turns to a key that does not lead to `top`, and so do its successors not.
      obtain ⟨rfl, hrest⟩ : first = k ∧ before ++ start :: after = rest := by simpa using hpending
      have hfirst : ¬ Leads edges first top := hbefore first List.mem_cons_self
      have hb : ∀ other ∈ edges first ++ before, ¬ Leads edges other top := by
        intro other ho
        rcases List.mem_append.mp ho with ho | ho
        · exact fun hl => hfirst (.of_edge ho hl)
        · exact hbefore other (List.mem_cons_of_mem _ ho)
      have hseen' : ∀ s ∈ first :: seen, Leads edges start s → ¬ Leads edges s top := by
        intro s hmem hl
        rcases List.mem_cons.mp hmem with rfl | hmem
        · exact hfirst
        · exact hseen s hmem hl
      have hrec := ih hb hpath hseen' (by rw [List.append_assoc, hrest])
      have hskipped : ∀ s ∈ [first], ¬ Leads edges s top := by simpa using hfirst
      exact hrec.prepend hskipped
    | nil =>
      obtain ⟨rfl, rfl⟩ : start = k ∧ after = rest := by simpa using hpending
      cases hpath with
      | arrived => exact .head _
      | @step _ next before' after' path hne hedges hb hnext =>
        have hmem : next ∈ edges start := by simp [hedges]
        have hseen' : ∀ s ∈ start :: seen, Leads edges next s → ¬ Leads edges s top := by
          intro s hs' hl
          rcases List.mem_cons.mp hs' with rfl | hs'
          · exact absurd hl (hc s next hmem)
          · exact hseen s hs' (.of_edge hmem hl)
        have hrec := ih hb hnext hseen' (by rw [hedges, List.append_assoc, List.cons_append])
        exact hrec.step start

end AnnotationResolution
