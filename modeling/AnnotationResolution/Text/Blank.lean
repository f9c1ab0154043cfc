/-!
# Blank characters

The characters with the Unicode property `White_Space`, and texts without them at both ends.
`head_trimBlank` and `getLast_trimBlank` say that nothing blank is left at either end,
`trimBlank_append` and `count_trimBlank` that nothing else is taken away.
-/

namespace AnnotationResolution

/-- The property `White_Space` as a table. -/
def blankCodePoints : List Nat :=
  [0x09, 0x0A, 0x0B, 0x0C, 0x0D, 0x20, 0x85, 0xA0, 0x1680,
   0x2000, 0x2001, 0x2002, 0x2003, 0x2004, 0x2005, 0x2006, 0x2007, 0x2008, 0x2009, 0x200A,
   0x2028, 0x2029, 0x202F, 0x205F, 0x3000]

def isBlank (c : Char) : Bool := blankCodePoints.contains c.toNat

def trimBlank (cs : List Char) : List Char :=
  ((cs.dropWhile isBlank).reverse.dropWhile isBlank).reverse

def isBlankText (text : String) : Bool := text.toList.all isBlank

theorem head_dropWhile_not {p : Char → Bool} {cs : List Char} {c : Char}
    (h : (cs.dropWhile p).head? = some c) : p c = false := by
  induction cs with
  | nil => simp at h
  | cons d rest ih =>
    by_cases hd : p d
    · rw [List.dropWhile_cons_of_pos hd] at h
      exact ih h
    · rw [List.dropWhile_cons_of_neg hd] at h
      obtain rfl : d = c := by simpa using h
      simpa using hd

theorem getLast_trimBlank {cs : List Char} {c : Char} (h : (trimBlank cs).getLast? = some c) :
    isBlank c = false := by
  rw [trimBlank, List.getLast?_reverse] at h
  exact head_dropWhile_not h

theorem head_trimBlank {cs : List Char} {c : Char} (h : (trimBlank cs).head? = some c) :
    isBlank c = false := by
  have hsuffix : ((cs.dropWhile isBlank).reverse.dropWhile isBlank) <:+
      (cs.dropWhile isBlank).reverse := List.dropWhile_suffix isBlank
  obtain ⟨dropped, hd⟩ := hsuffix
  have hpre : trimBlank cs ++ dropped.reverse = cs.dropWhile isBlank := by
    rw [trimBlank, ← List.reverse_append, hd, List.reverse_reverse]
  have hhead : (cs.dropWhile isBlank).head? = some c := by
    rw [← hpre, List.head?_append, h]
    rfl
  exact head_dropWhile_not hhead

theorem dropWhile_eq_self {p : Char → Bool} {cs : List Char}
    (h : ∀ c, cs.head? = some c → p c = false) : cs.dropWhile p = cs := by
  cases cs with
  | nil => rfl
  | cons c rest => exact List.dropWhile_cons_of_neg (by simp [h c rfl])

theorem dropWhile_append_of_head {p : Char → Bool} {ending : List Char}
    (h : ∀ c, ending.head? = some c → p c = false) (cs : List Char) :
    (cs ++ ending).dropWhile p = cs.dropWhile p ++ ending := by
  induction cs with
  | nil => exact dropWhile_eq_self h
  | cons c rest ih =>
    by_cases hc : p c
    · rw [List.cons_append, List.dropWhile_cons_of_pos hc, List.dropWhile_cons_of_pos hc, ih]
    · rw [List.cons_append, List.dropWhile_cons_of_neg hc, List.dropWhile_cons_of_neg hc,
        List.cons_append]

/-- Before an ending without blanks around it, only the blanks in front are taken away. -/
theorem trimBlank_append {ending : List Char} (hne : ending ≠ [])
    (hhead : ∀ c, ending.head? = some c → isBlank c = false)
    (hlast : ∀ c, ending.getLast? = some c → isBlank c = false) (cs : List Char) :
    trimBlank (cs ++ ending) = cs.dropWhile isBlank ++ ending := by
  have hback : ∀ c, (cs.dropWhile isBlank ++ ending).reverse.head? = some c → isBlank c = false := by
    intro c hc
    rw [List.head?_reverse, List.getLast?_append, List.getLast?_eq_some_getLast hne,
      Option.some_or, ← List.getLast?_eq_some_getLast hne] at hc
    exact hlast c hc
  rw [trimBlank, dropWhile_append_of_head hhead, dropWhile_eq_self hback, List.reverse_reverse]

theorem trimBlank_eq_self {cs : List Char} (hhead : ∀ c, cs.head? = some c → isBlank c = false)
    (hlast : ∀ c, cs.getLast? = some c → isBlank c = false) : trimBlank cs = cs := by
  by_cases hne : cs = []
  · rw [hne]
    rfl
  · exact trimBlank_append hne hhead hlast []

theorem trimBlank_trimBlank (cs : List Char) : trimBlank (trimBlank cs) = trimBlank cs :=
  trimBlank_eq_self (fun _ => head_trimBlank) fun _ => getLast_trimBlank

theorem count_dropWhile {p : Char → Bool} {c : Char} (h : p c = false) (cs : List Char) :
    (cs.dropWhile p).count c = cs.count c := by
  induction cs with
  | nil => rfl
  | cons d rest ih =>
    by_cases hd : p d
    · have hne : d ≠ c := by
        rintro rfl
        rw [h] at hd
        cases hd
      rw [List.dropWhile_cons_of_pos hd, ih, List.count_cons_of_ne hne]
    · rw [List.dropWhile_cons_of_neg hd]

theorem count_trimBlank {c : Char} (h : isBlank c = false) (cs : List Char) :
    (trimBlank cs).count c = cs.count c := by
  rw [trimBlank, List.count_reverse, count_dropWhile h, List.count_reverse, count_dropWhile h]

end AnnotationResolution
