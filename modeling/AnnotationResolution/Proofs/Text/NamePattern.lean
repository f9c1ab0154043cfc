import Mathlib.Data.List.Basic
import AnnotationResolution.Text.NamePattern

/-!
# What the patterns select

The dotted patterns compare texts: `q.**` looks for names that begin with `q.`, and `q.*` for those
where no further dot follows.  What they select is said in segments, the parts of a name between its
dots.  The two agree for every text, also where segments are empty, because a dot between two texts
puts their segments one after the other and a text can be put together again from its segments.

* `segments_prefix_iff`, `exists_segments_eq_append_singleton_iff`: the two dotted forms, read in
  segments.
* `ofChars_append_within` and the lemmas after it: which form a pattern has.
* `meaning_ofChars`: every form selects what it says.
* `exists_nameMatches_iff`: which patterns select a name that has no star in it.
-/

namespace AnnotationResolution

/-- The parts of a dotted name between its dots. -/
def segments (name : List Char) : List (List Char) := name.splitOn '.'

/-! ## Names and their segments -/

theorem segments_append (front back : List Char) :
    segments (front ++ '.' :: back) = segments front ++ segments back :=
  List.splitOn_append_cons_self front back

theorem segments_of_notMem {name : List Char} (h : '.' ∉ name) : segments name = [name] :=
  List.splitOn_eq_singleton h

theorem segments_ne_nil (name : List Char) : segments name ≠ [] := List.splitOn_ne_nil '.' name

/-- Names with the same segments are the same. -/
theorem segments_injective {name other : List Char} (h : segments name = segments other) :
    name = other := by
  have hjoin : ['.'].intercalate (segments name) = ['.'].intercalate (segments other) := by rw [h]
  rwa [segments, segments, List.intercalate_splitOn, List.intercalate_splitOn] at hjoin

theorem notMem_of_segments_eq_singleton {name child : List Char} (h : segments name = [child]) :
    '.' ∉ name := by
  intro hdot
  obtain ⟨front, back, rfl⟩ := List.append_of_mem hdot
  have hlength := congrArg List.length ((segments_append front back).symm.trans h)
  have hfront := List.length_pos_of_ne_nil (segments_ne_nil front)
  have hback := List.length_pos_of_ne_nil (segments_ne_nil back)
  rw [List.length_append, List.length_singleton] at hlength
  omega

/-- Segments that are cut off in front leave the segments of a name. -/
theorem exists_segments_eq {name : List Char} {front back : List (List Char)} (hback : back ≠ [])
    (h : segments name = front ++ back) : ∃ rest, segments rest = back := by
  induction front generalizing name with
  | nil => exact ⟨name, h⟩
  | cons first front ih =>
    by_cases hdot : '.' ∈ name
    · -- The first dot ends the first segment.
      obtain ⟨before, after, rfl, hbefore⟩ := List.eq_append_cons_of_mem hdot
      rw [segments_append, segments_of_notMem hbefore, List.singleton_append, List.cons_append,
        List.cons.injEq] at h
      exact ih h.2
    · rw [segments_of_notMem hdot, List.cons_append, List.cons.injEq] at h
      exact absurd (List.append_eq_nil_iff.mp h.2.symm).2 hback

/-- **The names below a name, and that name itself, are those whose segments begin with its.** -/
theorem segments_prefix_iff {root name : List Char} :
    segments root <+: segments name ↔ name = root ∨ ∃ rest, name = root ++ '.' :: rest := by
  constructor
  · rintro ⟨below, h⟩
    by_cases hbelow : below = []
    · left
      rw [hbelow, List.append_nil] at h
      exact segments_injective h.symm
    · right
      obtain ⟨rest, hrest⟩ := exists_segments_eq hbelow h.symm
      refine ⟨rest, segments_injective ?_⟩
      rw [segments_append, hrest, h]
  · rintro (rfl | ⟨rest, rfl⟩)
    · exact List.prefix_refl _
    · rw [segments_append]
      exact List.prefix_append _ _

/-- **The names directly below a name have one segment more.** -/
theorem exists_segments_eq_append_singleton_iff {parent name : List Char} :
    (∃ child, segments name = segments parent ++ [child]) ↔
      ∃ child, '.' ∉ child ∧ name = parent ++ '.' :: child := by
  constructor
  · rintro ⟨child, h⟩
    obtain ⟨rest, hrest⟩ := exists_segments_eq (List.cons_ne_nil child []) h
    refine ⟨rest, notMem_of_segments_eq_singleton hrest, segments_injective ?_⟩
    rw [segments_append, hrest, h]
  · rintro ⟨child, hdot, rfl⟩
    exact ⟨child, by rw [segments_append, segments_of_notMem hdot]⟩

namespace NamePattern

/-! ## The forms of patterns -/

theorem ofChars_append_within (root : List Char) :
    ofChars (root ++ ['.', '*', '*']) = within root := by
  rw [ofChars, stripSuffix?_eq_some_iff.mpr rfl]

theorem ofChars_append_childOf (parent : List Char) :
    ofChars (parent ++ ['.', '*']) = childOf parent := by
  -- The character before the last is a dot and no star.
  have hnone : stripSuffix? ['.', '*', '*'] (parent ++ ['.', '*']) = none := by
    rw [stripSuffix?_eq_none_iff]
    rintro ⟨root, h⟩
    have hrev := congrArg List.reverse h
    simp at hrev
  rw [ofChars, hnone, stripSuffix?_eq_some_iff.mpr rfl]

theorem ofChars_anything {cs : List Char} (h : cs = ['*'] ∨ cs = ['*', '*']) :
    ofChars cs = anything := by
  rcases h with rfl | rfl
  · rfl
  · rfl

theorem ofChars_between {start ending : List Char} (hstart : '*' ∉ start) (hending : '*' ∉ ending)
    (hchild : ¬ ['.', '*'] <:+ start ++ '*' :: ending) (hne : start ++ '*' :: ending ≠ ['*']) :
    ofChars (start ++ '*' :: ending) = between start ending := by
  have hcount : (start ++ '*' :: ending).count '*' = 1 := by
    rw [List.count_append, List.count_cons_self, List.count_eq_zero.mpr hstart,
      List.count_eq_zero.mpr hending]
  have hwithin : ¬ ['.', '*', '*'] <:+ start ++ '*' :: ending := by
    intro h
    have htwo := h.sublist.count_le '*'
    rw [hcount] at htwo
    exact absurd htwo (by decide)
  have htwo : start ++ '*' :: ending ≠ ['*', '*'] := by
    intro h
    rw [h] at hcount
    exact absurd hcount (by decide)
  have hplain : ∀ c ∈ start, decide (c ≠ '*') = true := by
    intro c hc
    exact decide_eq_true fun he => hstart (he ▸ hc)
  simp only [ofChars, stripSuffix?_eq_none_iff.mpr hwithin, stripSuffix?_eq_none_iff.mpr hchild,
    if_neg (not_or.mpr ⟨hne, htwo⟩), hcount]
  rw [List.takeWhile_append_of_pos hplain, List.dropWhile_append_of_pos hplain]
  simp

theorem ofChars_exactly {cs : List Char} (h : '*' ∉ cs) : ofChars cs = exactly cs := by
  have hcount : cs.count '*' = 0 := List.count_eq_zero.mpr h
  have hwithin : ¬ ['.', '*', '*'] <:+ cs := fun hs => h (hs.subset (by decide))
  have hchild : ¬ ['.', '*'] <:+ cs := fun hs => h (hs.subset (by decide))
  have hne : ¬ (cs = ['*'] ∨ cs = ['*', '*']) := by
    rintro (rfl | rfl)
    · exact h List.mem_cons_self
    · exact h List.mem_cons_self
  simp only [ofChars, stripSuffix?_eq_none_iff.mpr hwithin, stripSuffix?_eq_none_iff.mpr hchild,
    if_neg hne, hcount]

theorem ofChars_unsupported {cs : List Char} (hcount : 1 < cs.count '*') (hne : cs ≠ ['*', '*'])
    (hwithin : ¬ ['.', '*', '*'] <:+ cs) (hchild : ¬ ['.', '*'] <:+ cs) :
    ofChars cs = unsupported := by
  have hone : cs ≠ ['*'] := by
    rintro rfl
    exact absurd hcount (by decide)
  simp only [ofChars, stripSuffix?_eq_none_iff.mpr hwithin, stripSuffix?_eq_none_iff.mpr hchild,
    if_neg (not_or.mpr ⟨hone, hne⟩)]
  split
  · omega
  · omega
  · rfl

/-! ## What they select -/

/-- What a pattern says about a name, both without blanks around them: for each form of pattern,
when the name is `selected`. -/
structure Meaning (pattern name : List Char) (selected : Prop) : Prop where
  within : ∀ root, pattern = root ++ ['.', '*', '*'] → (selected ↔ segments root <+: segments name)
  childOf : ∀ parent, pattern = parent ++ ['.', '*'] →
    (selected ↔ ∃ child, segments name = segments parent ++ [child])
  anything : pattern = ['*'] ∨ pattern = ['*', '*'] → selected
  /-- The middle may be empty, but what stands before and behind it does not overlap. -/
  between : ∀ start ending, pattern = start ++ '*' :: ending → '*' ∉ start → '*' ∉ ending →
    ¬ ['.', '*'] <:+ pattern → (selected ↔ ∃ middle, name = start ++ middle ++ ending)
  exactly : '*' ∉ pattern → (selected ↔ name = pattern)
  unsupported : 1 < pattern.count '*' → pattern ≠ ['*', '*'] → ¬ ['.', '*', '*'] <:+ pattern →
    ¬ ['.', '*'] <:+ pattern → ¬ selected

theorem meaning_ofChars (pattern name : List Char) :
    Meaning pattern name ((ofChars pattern).accepts name = true) where
  within root h := by
    rw [h, ofChars_append_within, accepts_within, segments_prefix_iff]
  childOf parent h := by
    rw [h, ofChars_append_childOf, accepts_childOf, exists_segments_eq_append_singleton_iff]
  anything h := by
    rw [ofChars_anything h]
    rfl
  between start ending h hstart hending hchild := by
    subst h
    by_cases hone : start ++ '*' :: ending = ['*']
    · -- The star alone selects all names, and has nothing before or behind it.
      rw [ofChars_anything (Or.inl hone)]
      obtain ⟨rfl, rfl⟩ : start = [] ∧ ending = [] := by
        cases start with
        | nil => exact ⟨rfl, (List.cons.inj hone).2⟩
        | cons c rest => simp at hone
      exact iff_of_true rfl ⟨name, by simp⟩
    · rw [ofChars_between hstart hending hchild hone, accepts_between]
  exactly h := by
    rw [ofChars_exactly h]
    exact beq_iff_eq
  unsupported hcount hne hwithin hchild := by
    rw [ofChars_unsupported hcount hne hwithin hchild]
    exact Bool.false_ne_true

/-! ## Patterns that select something -/

/-- One star at most, or two at the end of a dotted pattern or as the whole of it. -/
inductive Live : List Char → Prop
  | plain {pattern : List Char} : '*' ∉ pattern → Live pattern
  | one {start ending : List Char} : '*' ∉ start → '*' ∉ ending → Live (start ++ '*' :: ending)
  | within {root : List Char} : '*' ∉ root → Live (root ++ ['.', '*', '*'])
  | anything : Live ['*', '*']

theorem live_of_count_le {pattern : List Char} (h : pattern.count '*' ≤ 1) : Live pattern := by
  by_cases hstar : '*' ∈ pattern
  · obtain ⟨start, ending, rfl, hstart⟩ := List.eq_append_cons_of_mem hstar
    rw [List.count_append, List.count_cons_self] at h
    have hending : ending.count '*' = 0 := by omega
    exact .one hstart (List.count_eq_zero.mp hending)
  · exact .plain hstar

/-- The pattern with a letter for each star. -/
def filled (pattern : List Char) : List Char := pattern.map fun c => if c = '*' then 'x' else c

theorem filled_append (front back : List Char) :
    filled (front ++ back) = filled front ++ filled back := List.map_append

theorem filled_of_notMem {pattern : List Char} (h : '*' ∉ pattern) : filled pattern = pattern := by
  have hsame : ∀ c ∈ pattern, (if c = '*' then 'x' else c) = c := by
    intro c hc
    have hne : c ≠ '*' := by
      rintro rfl
      exact h hc
    exact if_neg hne
  rw [filled, List.map_congr_left hsame, List.map_id']

theorem notMem_filled (pattern : List Char) : '*' ∉ filled pattern := by
  intro h
  obtain ⟨c, -, hc⟩ := List.mem_map.mp h
  split at hc
  · exact absurd hc (by decide)
  · next hne => exact hne hc

theorem trimBlank_filled {pattern : List Char} (h : trimBlank pattern = pattern) :
    trimBlank (filled pattern) = filled pattern := by
  have hkept : ∀ {c}, isBlank c = false → isBlank (if c = '*' then 'x' else c) = false := by
    intro c hc
    split
    · decide
    · exact hc
  refine trimBlank_eq_self ?_ ?_
  · intro c hc
    rw [filled, List.head?_map] at hc
    obtain ⟨first, hfirst, rfl⟩ := Option.map_eq_some_iff.mp hc
    exact hkept (head_trimBlank (h.symm ▸ hfirst))
  · intro c hc
    rw [filled, List.getLast?_map] at hc
    obtain ⟨last, hlast, rfl⟩ := Option.map_eq_some_iff.mp hc
    exact hkept (getLast_trimBlank (h.symm ▸ hlast))

theorem Live.accepts_filled {pattern : List Char} (h : Live pattern) :
    (ofChars pattern).accepts (filled pattern) = true := by
  cases h with
  | plain hstar => exact ((meaning_ofChars _ _).exactly hstar).mpr (filled_of_notMem hstar)
  | @one start ending hstart hending =>
    have hfilled : filled (start ++ '*' :: ending) = start ++ 'x' :: ending := by
      rw [filled_append, filled_of_notMem hstart]
      exact congrArg (start ++ 'x' :: ·) (filled_of_notMem hending)
    by_cases hchild : ['.', '*'] <:+ start ++ '*' :: ending
    · -- The star is the last character, and the one before it is a dot.
      obtain ⟨parent, hparent⟩ := hchild
      rw [← hparent] at hfilled ⊢
      rw [ofChars_append_childOf, accepts_childOf]
      refine ⟨['x'], by decide, ?_⟩
      have hplain : '*' ∉ parent := by
        have hcount := congrArg (List.count '*') hparent
        rw [List.count_append, List.count_append, List.count_cons_self,
          List.count_eq_zero.mpr hstart, List.count_eq_zero.mpr hending] at hcount
        refine List.count_eq_zero.mp ?_
        have hone : ['.', '*'].count '*' = 1 := by decide
        omega
      rw [filled_append, filled_of_notMem hplain]
      rfl
    · refine ((meaning_ofChars _ _).between start ending rfl hstart hending hchild).mpr ⟨['x'], ?_⟩
      rw [hfilled, List.append_assoc, List.singleton_append]
  | within hroot =>
    rw [ofChars_append_within, accepts_within, filled_append, filled_of_notMem hroot]
    exact Or.inr ⟨['x', 'x'], rfl⟩
  | anything => rfl

theorem live_of_accepts {pattern name : List Char} (hstar : '*' ∉ name)
    (h : (ofChars pattern).accepts name = true) : Live pattern := by
  by_cases hcount : pattern.count '*' ≤ 1
  · exact live_of_count_le hcount
  by_cases hboth : pattern = ['*', '*']
  · exact hboth ▸ .anything
  by_cases hwithin : ['.', '*', '*'] <:+ pattern
  · -- The name begins with the root, so there is no star in it.
    obtain ⟨root, rfl⟩ := hwithin
    rw [ofChars_append_within, accepts_within] at h
    refine .within fun hroot => hstar ?_
    rcases h with rfl | ⟨rest, rfl⟩
    · exact hroot
    · exact List.mem_append_left _ hroot
  by_cases hchild : ['.', '*'] <:+ pattern
  · obtain ⟨parent, rfl⟩ := hchild
    rw [ofChars_append_childOf, accepts_childOf] at h
    obtain ⟨child, -, rfl⟩ := h
    have hparent : '*' ∈ parent := by
      rw [List.count_append] at hcount
      refine List.count_pos_iff.mp ?_
      have hone : ['.', '*'].count '*' = 1 := by decide
      omega
    exact absurd (List.mem_append_left _ hparent) hstar
  · exact absurd h
      ((meaning_ofChars _ _).unsupported (Nat.lt_of_not_le hcount) hboth hwithin hchild)

end NamePattern

/-- **Just the live patterns select a name that has no star in it.** -/
theorem exists_nameMatches_iff {pattern : String} :
    (∃ name : String, '*' ∉ name.toList ∧ nameMatches name pattern = true) ↔
      NamePattern.Live (trimBlank pattern.toList) := by
  constructor
  · rintro ⟨name, hstar, h⟩
    refine NamePattern.live_of_accepts (fun hmem => hstar ?_) h
    have hcount : (trimBlank name.toList).count '*' = name.toList.count '*' :=
      count_trimBlank (by decide) _
    exact List.count_pos_iff.mp (hcount ▸ List.count_pos_iff.mpr hmem)
  · intro h
    refine ⟨String.ofList (NamePattern.filled (trimBlank pattern.toList)), ?_, ?_⟩
    · rw [String.toList_ofList]
      exact NamePattern.notMem_filled _
    · rw [nameMatches, String.toList_ofList,
        NamePattern.trimBlank_filled (trimBlank_trimBlank _)]
      exact h.accepts_filled

/-- Blanks are left out in front of a dotted pattern only, for it ends in a star. -/
theorem trimBlank_dotted (root stars : List Char) (hne : stars ≠ [])
    (hstars : ∀ c ∈ stars, c = '*') :
    trimBlank (root ++ '.' :: stars) = root.dropWhile isBlank ++ '.' :: stars := by
  refine trimBlank_append (List.cons_ne_nil _ _) ?_ ?_ _
  · intro c hc
    obtain rfl := Option.some.inj hc
    decide
  · intro c hc
    rw [List.getLast?_cons_of_ne_nil hne] at hc
    rw [hstars c (List.mem_of_getLast? hc)]
    decide

/-- **Name patterns mean what they say.**  For all names and patterns, blanks around them left out,
a name is selected just when it is of the form that the pattern has; and what `q.*` selects, `q.**`
selects too. -/
theorem nameMatches_meaning (name pattern : String) :
    NamePattern.Meaning (trimBlank pattern.toList) (trimBlank name.toList)
        (nameMatches name pattern = true) ∧
      ∀ root : String, nameMatches name (root ++ ".*") = true →
        nameMatches name (root ++ ".**") = true := by
  refine ⟨NamePattern.meaning_ofChars _ _, fun root h => ?_⟩
  have hchild : trimBlank (root ++ ".*").toList = root.toList.dropWhile isBlank ++ ['.', '*'] := by
    rw [String.toList_append]
    exact trimBlank_dotted _ ['*'] (by decide) (by simp)
  have hwithin : trimBlank (root ++ ".**").toList =
      root.toList.dropWhile isBlank ++ ['.', '*', '*'] := by
    rw [String.toList_append]
    exact trimBlank_dotted _ ['*', '*'] (by decide) (by simp)
  rw [nameMatches, NamePattern.parse, hchild, NamePattern.ofChars_append_childOf,
    NamePattern.accepts_childOf] at h
  obtain ⟨child, -, hname⟩ := h
  rw [nameMatches, NamePattern.parse, hwithin, NamePattern.ofChars_append_within,
    NamePattern.accepts_within]
  exact Or.inr ⟨child, hname⟩

/-- A class directly in a package. -/
theorem nameMatches_meaning_child :
    nameMatches "com.foo.Bar" "com.foo.*" = true ∧ nameMatches "com.foo.Bar" "com.foo.**" = true := by
  have hchild : nameMatches "com.foo.Bar" "com.foo.*" = true := by decide
  exact ⟨hchild, (nameMatches_meaning "com.foo.Bar" "com.foo.*").2 "com.foo" hchild⟩

/-- The end of the name is needed for what stands before the star. -/
example : nameMatches "a.Bar" "a.Bar*ar" = false := by decide

end AnnotationResolution
