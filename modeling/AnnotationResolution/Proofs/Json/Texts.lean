import Mathlib.Data.List.Forall2
import AnnotationResolution.Json.Reader
import AnnotationResolution.Proofs.Json.Tokens

/-!
# Reading back a written text

A written value is a sequence of tokens, whatever blanks stand between them; `tokens` lists them.
The reader makes of these tokens the value they come from, so a text that is cut into them is read
back, but for what lies too deep.

* `Carried` says that each number is read back from its own text, `depth` how many arrays and
  objects lie in one another.
* `ofTokens?_tokens`: the reader gives the value back that the tokens come from.
* `spells_prettyAt`, `spells_compact`: both ways to write a value give its tokens.
* `parse?_pretty`, `parse?_compact`, `limitDepth_of_depth_le`: a value that does not lie too deep is
  read back.
-/

namespace AnnotationResolution.Json

/-! ## The tokens of a value -/

/-- Commas between the parts. -/
def commaSeparated (parts : List (List Token)) : List Token := [.mark ','].intercalate parts

mutual

def tokens : Json → List Token
  | .arr items => .mark '[' :: commaSeparated (itemTokens items) ++ [.mark ']']
  | .obj fields => .mark '\x7b' :: commaSeparated (fieldTokens fields) ++ [.mark '\x7d']
  | .str s => [.text (some s)]
  | .null => [.scalar .null]
  | .unreadable => [.scalar .null]
  | .bool b => [.scalar (.bool b)]
  | .int n => [.scalar (.int n)]
  | .float x => [.scalar (.float x)]

def itemTokens : List Json → List (List Token)
  | [] => []
  | item :: rest => tokens item :: itemTokens rest

def fieldTokens : List (String × Json) → List (List Token)
  | [] => []
  | (key, value) :: rest => (.text (some key) :: .mark ':' :: tokens value) :: fieldTokens rest

end

theorem commaSeparated_cons_cons (first second : List Token) (rest : List (List Token)) :
    commaSeparated (first :: second :: rest) =
      first ++ .mark ',' :: commaSeparated (second :: rest) := by
  rw [commaSeparated, List.intercalate_cons_cons, List.append_assoc]
  rfl

theorem commaSeparated_singleton (part : List Token) : commaSeparated [part] = part :=
  List.intercalate_singleton

/-! ## From the tokens to the value -/

section Machine

open Reading

/-- Fields as the reader keeps them, where a key may have no value. -/
def keyed (fields : List (String × Json)) : List (Option String × Json) :=
  fields.map fun field => (some field.1, field.2)

theorem keyed_cons (name : String) (v : Json) (fields : List (String × Json)) :
    keyed ((name, v) :: fields) = (some name, v) :: keyed fields := rfl

theorem closeObject_keyed (fields : List (String × Json)) :
    closeObject (keyed fields) = .obj fields.reverse := by
  have hnames : (keyed fields).mapM (fun field => field.1.map (·, field.2)) = some fields := by
    induction fields with
    | nil => rfl
    | cons field rest ih =>
      obtain ⟨name, v⟩ := field
      simp [keyed_cons, ih]
  rw [closeObject, hnames]

/-- No value begins with the end of an array. -/
theorem exists_tokens_eq_cons (j : Json) :
    ∃ first rest, tokens j = first :: rest ∧ first ≠ .mark ']' := by
  cases j <;> exact ⟨_, _, rfl, by simp⟩

theorem exists_itemTokens_eq_cons (item : Json) (rest : List Json) :
    ∃ first others, commaSeparated (itemTokens (item :: rest)) = first :: others ∧
      first ≠ .mark ']' := by
  obtain ⟨first, others, hitem, hne⟩ := exists_tokens_eq_cons item
  cases rest with
  | nil =>
    rw [itemTokens, itemTokens, commaSeparated_singleton]
    exact ⟨first, others, hitem, hne⟩
  | cons second rest =>
    rw [itemTokens, itemTokens, commaSeparated_cons_cons, hitem]
    exact ⟨first, _, rfl, hne⟩

/-- The first item of an array is read as any other. -/
theorem foldlM_firstItem {first : Token} (h : first ≠ .mark ']') (rest : List Token)
    (frames : List Frame) : (first :: rest).foldlM step (firstItem frames) =
      (first :: rest).foldlM step (value (.array [] :: frames)) := by
  have hstep : step (firstItem frames) first = step (value (.array [] :: frames)) first := by
    simp [step]
  rw [List.foldlM_cons, List.foldlM_cons, hstep]

theorem exists_fieldTokens_eq_cons (name : String) (v : Json) (rest : List (String × Json)) :
    ∃ others, commaSeparated (fieldTokens ((name, v) :: rest)) = .text (some name) :: others := by
  cases rest with
  | nil => exact ⟨_, by rw [fieldTokens, fieldTokens, commaSeparated_singleton]⟩
  | cons second rest =>
    obtain ⟨key, value⟩ := second
    rw [fieldTokens, fieldTokens, commaSeparated_cons_cons]
    exact ⟨_, rfl⟩

theorem foldlM_firstKey (name : Option String) (rest : List Token) (frames : List Frame) :
    (Token.text name :: rest).foldlM step (firstKey frames) =
      (Token.text name :: rest).foldlM step (key frames []) := rfl

theorem foldlM_field {v : Json}
    (h : ∀ frames, (tokens v).foldlM step (value frames) = some (complete frames v))
    (name : Option String) (read : List (Option String × Json)) (frames : List Frame) :
    (Token.text name :: .mark ':' :: tokens v).foldlM step (key frames read) =
      some (complete (.object read name :: frames) v) := h _

-- What is still open and what was read of it goes through the run unchanged, so the induction is on
-- the value alone; the items and fields of a value are the other two recursions.
mutual

theorem foldlM_tokens : ∀ {j : Json}, j.isReadable = true → ∀ frames : List Frame,
    (tokens j).foldlM step (value frames) = some (complete frames j)
  | .arr [], _, frames => rfl
  | .arr (item :: rest), h, frames => by
    obtain ⟨first, others, hitems, hne⟩ := exists_itemTokens_eq_cons item rest
    have ih := foldlM_itemTokens h (List.cons_ne_nil item rest) [] frames
    rw [hitems, List.cons_append, ← foldlM_firstItem hne] at ih
    rw [tokens, hitems]
    exact ih
  | .obj [], _, frames => rfl
  | .obj (field :: rest), h, frames => by
    obtain ⟨name, v⟩ := field
    obtain ⟨others, hfields⟩ := exists_fieldTokens_eq_cons name v rest
    have ih := foldlM_fieldTokens h (List.cons_ne_nil (name, v) rest) [] frames
    rw [hfields, List.cons_append, keyed, List.map_nil, ← foldlM_firstKey] at ih
    rw [tokens, hfields]
    exact ih
  | .str _, _, _ | .null, _, _ | .bool _, _, _ | .int _, _, _ | .float _, _, _ => rfl

/-- The items of an array, of which some are read. -/
theorem foldlM_itemTokens : ∀ {items : List Json}, areReadable items = true → items ≠ [] →
    ∀ (read : List Json) (frames : List Frame),
      (commaSeparated (itemTokens items) ++ [Token.mark ']']).foldlM step
        (value (.array read :: frames)) = some (complete frames (.arr (read.reverse ++ items)))
  | [item], h, _, read, frames => by
    rw [areReadable, Bool.and_eq_true] at h
    rw [itemTokens, itemTokens, commaSeparated_singleton, List.foldlM_append,
      foldlM_tokens h.1]
    simp [step]
  | item :: second :: rest, h, _, read, frames => by
    rw [areReadable, Bool.and_eq_true] at h
    have ih := foldlM_itemTokens h.2 (List.cons_ne_nil second rest) (item :: read) frames
    rw [itemTokens, List.reverse_cons, List.append_assoc] at ih
    rw [itemTokens, itemTokens, commaSeparated_cons_cons, List.append_assoc, List.foldlM_append,
      foldlM_tokens h.1]
    exact ih

/-- The fields of an object, of which some are read. -/
theorem foldlM_fieldTokens : ∀ {fields : List (String × Json)}, haveReadableValues fields = true →
    fields ≠ [] → ∀ (read : List (String × Json)) (frames : List Frame),
      (commaSeparated (fieldTokens fields) ++ [Token.mark '\x7d']).foldlM step
        (key frames (keyed read)) = some (complete frames (.obj (read.reverse ++ fields)))
  | [(name, v)], h, _, read, frames => by
    rw [haveReadableValues, Bool.and_eq_true] at h
    rw [fieldTokens, fieldTokens, commaSeparated_singleton, List.foldlM_append,
      foldlM_field (foldlM_tokens h.1)]
    have hclose : step (complete (.object (keyed read) (some name) :: frames) v) (.mark '\x7d') =
        some (complete frames (.obj (read.reverse ++ [(name, v)]))) := by
      rw [step, ← keyed_cons, closeObject_keyed, List.reverse_cons]
    simp [hclose]
  | (name, v) :: (other, w) :: rest, h, _, read, frames => by
    rw [haveReadableValues, Bool.and_eq_true] at h
    have ih := foldlM_fieldTokens h.2 (List.cons_ne_nil (other, w) rest) ((name, v) :: read) frames
    rw [fieldTokens, keyed_cons, List.reverse_cons, List.append_assoc] at ih
    rw [fieldTokens, fieldTokens, commaSeparated_cons_cons, List.append_assoc, List.foldlM_append,
      foldlM_field (foldlM_tokens h.1)]
    exact ih

end

/-- **The reader gives the value back that the tokens come from.** -/
theorem ofTokens?_tokens {j : Json} (h : j.isReadable = true) : ofTokens? (tokens j) = some j := by
  rw [ofTokens?, foldlM_tokens h]

end Machine

/-! ## From the text to the tokens -/

/-- The text is cut into these tokens. -/
def Spells (text : List Char) (tokens : List Token) : Prop := Token.ofChars? text = some tokens

theorem Spells.append {text rest : List Char} {first others : List Token} (h : Spells text first)
    (hr : Spells rest others) (hs : Lexeme.Separated rest) :
    Spells (text ++ rest) (first ++ others) := by
  rw [Spells, Token.ofChars?_append h hs, hr, Option.map_some]

theorem Spells.mark {c : Char} (hc : Lexeme.isMark c = true) {rest : List Char}
    {tokens : List Token} (h : Spells rest tokens) : Spells (c :: rest) (.mark c :: tokens) := by
  rw [Spells, Token.ofChars?_mark hc, h, Option.map_some]

theorem Spells.blanks {blanks : List Char} (hb : ∀ c ∈ blanks, Lexeme.isSpace c = true)
    {rest : List Char} {tokens : List Token} (h : Spells rest tokens) :
    Spells (blanks ++ rest) tokens := by
  induction blanks with
  | nil => exact h
  | cons c blanks ih =>
    rw [List.forall_mem_cons] at hb
    rw [Spells, List.cons_append, Token.ofChars?_space hb.1]
    exact ih hb.2

theorem separated_blanks {blanks : List Char} (hb : ∀ c ∈ blanks, Lexeme.isSpace c = true)
    {rest : List Char} (h : Lexeme.Separated rest) : Lexeme.Separated (blanks ++ rest) := by
  cases blanks with
  | nil => exact h
  | cons c blanks => exact .inl (hb c List.mem_cons_self)

/-- Parts with commas between them, and blanks behind the commas. -/
theorem Spells.intercalate {blanks : List Char} (hb : ∀ c ∈ blanks, Lexeme.isSpace c = true)
    {texts : List (List Char)} {parts : List (List Token)} (h : List.Forall₂ Spells texts parts)
    {rest : List Char} {others : List Token} (hr : Spells rest others)
    (hs : Lexeme.Separated rest) :
    Spells ((',' :: blanks).intercalate texts ++ rest) (commaSeparated parts ++ others) := by
  induction h with
  | nil => exact hr
  | @cons text part texts parts hfirst hrest ih =>
    cases hrest with
    | nil =>
      rw [commaSeparated_singleton, List.intercalate_singleton]
      exact hfirst.append hr hs
    | cons hsecond hothers =>
      rw [commaSeparated_cons_cons, List.intercalate_cons_cons, List.append_assoc,
        List.append_assoc, List.append_assoc, List.cons_append, List.cons_append]
      exact hfirst.append ((ih.blanks hb).mark rfl) (.inr rfl)

/-- Parts between an opening and a closing mark, with blanks behind the one, before the other and
behind the commas. -/
theorem Spells.enclosed {opening closing : Char} (ho : Lexeme.isMark opening = true)
    (hc : Lexeme.isMark closing = true) {before blanks after : List Char}
    (hbefore : ∀ c ∈ before, Lexeme.isSpace c = true)
    (hblanks : ∀ c ∈ blanks, Lexeme.isSpace c = true)
    (hafter : ∀ c ∈ after, Lexeme.isSpace c = true) {texts : List (List Char)}
    {parts : List (List Token)} (h : List.Forall₂ Spells texts parts) :
    Spells (opening :: before ++ (',' :: blanks).intercalate texts ++ after ++ [closing])
      (.mark opening :: commaSeparated parts ++ [.mark closing]) := by
  have hend : Spells [closing] [.mark closing] := Spells.mark hc rfl
  have hinner := Spells.intercalate hblanks h (hend.blanks hafter)
    (separated_blanks hafter (.inr hc))
  have := (hinner.blanks hbefore).mark ho
  simpa only [List.cons_append, List.append_assoc] using this

/-! ## Carried values -/

mutual

/-- Every part has a value, every integer has 64 bits, and every double is the one that its text
stands for. -/
def Carried : Json → Prop
  | .arr items => AreCarried items
  | .obj fields => HaveCarriedValues fields
  | .int n => NumberText.IsInteger64 n
  | .float x => Token.ofChars? (floatText x).toList = some [.scalar (.float x)]
  | .unreadable => False
  | .null => True
  | .bool _ => True
  | .str _ => True

def AreCarried : List Json → Prop
  | [] => True
  | item :: rest => Carried item ∧ AreCarried rest

def HaveCarriedValues : List (String × Json) → Prop
  | [] => True
  | (_, value) :: rest => Carried value ∧ HaveCarriedValues rest

end

mutual

theorem Carried.isReadable : ∀ {j : Json}, j.Carried → j.isReadable = true
  | .arr _, h => AreCarried.areReadable h
  | .obj _, h => HaveCarriedValues.haveReadableValues h
  | .null, _ | .bool _, _ | .int _, _ | .float _, _ | .str _, _ => rfl

theorem AreCarried.areReadable : ∀ {items : List Json}, AreCarried items → areReadable items = true
  | [], _ => rfl
  | _ :: _, h => Bool.and_eq_true_iff.mpr ⟨Carried.isReadable h.1, AreCarried.areReadable h.2⟩

theorem HaveCarriedValues.haveReadableValues : ∀ {fields : List (String × Json)},
    HaveCarriedValues fields → haveReadableValues fields = true
  | [], _ => rfl
  | _ :: _, h =>
    Bool.and_eq_true_iff.mpr ⟨Carried.isReadable h.1, HaveCarriedValues.haveReadableValues h.2⟩

end

/-! ## Both ways of writing -/

theorem spells_null : Spells "null".toList [.scalar .null] := by rfl

theorem spells_bool (b : Bool) :
    Spells (if b then "true" else "false").toList [.scalar (.bool b)] := by
  cases b <;> rfl

theorem isSpace_newLine (level : Nat) : ∀ c ∈ (newLine level).toList, Lexeme.isSpace c = true := by
  have htext : (newLine level).toList = '\n' :: List.replicate (2 * level) ' ' := by
    simp [newLine]
  rw [htext, List.forall_mem_cons]
  refine ⟨rfl, fun c hc => ?_⟩
  rw [List.eq_of_mem_replicate hc]
  rfl

theorem spells_block {opening closing : String} {o c : Char} (ho : opening.toList = [o])
    (hc : closing.toList = [c]) (hom : Lexeme.isMark o = true) (hcm : Lexeme.isMark c = true)
    (level : Nat) {lines : List String} {parts : List (List Token)}
    (h : List.Forall₂ Spells (lines.map String.toList) parts) :
    Spells (block opening closing level lines).toList
      (.mark o :: commaSeparated parts ++ [.mark c]) := by
  rw [block]
  split
  · next hempty =>
    obtain rfl := List.isEmpty_iff.mp hempty
    cases h
    have hblank : ∀ c ∈ ([] : List Char), Lexeme.isSpace c = true := by simp
    have := Spells.enclosed hom hcm hblank hblank hblank .nil
    simpa [ho, hc] using this
  · have hline := isSpace_newLine (level + 1)
    have := Spells.enclosed hom hcm hline hline (isSpace_newLine level) h
    simpa [ho, hc] using this

theorem spells_field (key : String) {value blanks : List Char} {tokens : List Token}
    (hb : ∀ c ∈ blanks, Lexeme.isSpace c = true) (h : Spells value tokens) :
    Spells ((quote key).toList ++ ':' :: (blanks ++ value))
      (.text (some key) :: .mark ':' :: tokens) :=
  Spells.append (Token.ofChars?_quote key) ((h.blanks hb).mark rfl) (.inr rfl)

mutual

theorem spells_prettyAt : ∀ {j : Json}, j.Carried → ∀ level : Nat,
    Spells (prettyAt level j).toList (tokens j)
  | .arr items, h, level => by
    rw [prettyAt, tokens]
    exact spells_block (o := '[') (c := ']') rfl rfl rfl rfl level
      (spells_prettyItems h (level + 1))
  | .obj fields, h, level => by
    rw [prettyAt, tokens]
    exact spells_block (o := '\x7b') (c := '\x7d') rfl rfl rfl rfl level
      (spells_prettyFields h (level + 1))
  | .null, _, _ => by
    rw [prettyAt, tokens]
    exact spells_null
  | .bool b, _, _ => by
    rw [prettyAt, tokens]
    exact spells_bool b
  | .int n, h, _ => by
    rw [prettyAt, tokens]
    exact Token.ofChars?_toString h
  | .float _, h, _ => by
    rw [prettyAt, tokens]
    exact h
  | .str s, _, _ => by
    rw [prettyAt, tokens]
    exact Token.ofChars?_quote s

theorem spells_prettyItems : ∀ {items : List Json}, AreCarried items → ∀ level : Nat,
    List.Forall₂ Spells ((prettyItems level items).map String.toList) (itemTokens items)
  | [], _, _ => .nil
  | _ :: _, h, level => .cons (spells_prettyAt h.1 level) (spells_prettyItems h.2 level)

theorem spells_prettyFields : ∀ {fields : List (String × Json)}, HaveCarriedValues fields →
    ∀ level : Nat,
      List.Forall₂ Spells ((prettyFields level fields).map String.toList) (fieldTokens fields)
  | [], _, _ => .nil
  | (key, value) :: _, h, level => by
    have hblank : ∀ c ∈ [' '], Lexeme.isSpace c = true := List.forall_mem_singleton.mpr rfl
    have hfield := spells_field key hblank (spells_prettyAt h.1 level)
    refine .cons ?_ (spells_prettyFields h.2 level)
    simpa using hfield

end

theorem spells_line {opening closing : String} {o c : Char} (ho : opening.toList = [o])
    (hc : closing.toList = [c]) (hom : Lexeme.isMark o = true) (hcm : Lexeme.isMark c = true)
    {items : List String} {parts : List (List Token)}
    (h : List.Forall₂ Spells (items.map String.toList) parts) :
    Spells (opening ++ ",".intercalate items ++ closing).toList
      (.mark o :: commaSeparated parts ++ [.mark c]) := by
  have hblank : ∀ c ∈ ([] : List Char), Lexeme.isSpace c = true := by simp
  have := Spells.enclosed hom hcm hblank hblank hblank h
  simpa [ho, hc] using this

mutual

theorem spells_compact : ∀ {j : Json}, j.Carried → Spells (compact j).toList (tokens j)
  | .arr items, h => by
    rw [compact, tokens]
    exact spells_line (o := '[') (c := ']') rfl rfl rfl rfl (spells_compactItems h)
  | .obj fields, h => by
    rw [compact, tokens]
    exact spells_line (o := '\x7b') (c := '\x7d') rfl rfl rfl rfl (spells_compactFields h)
  | .null, _ => by
    rw [compact, tokens]
    exact spells_null
  | .bool b, _ => by
    rw [compact, tokens]
    exact spells_bool b
  | .int n, h => by
    rw [compact, tokens]
    exact Token.ofChars?_toString h
  | .float _, h => by
    rw [compact, tokens]
    exact h
  | .str s, _ => by
    rw [compact, tokens]
    exact Token.ofChars?_quote s

theorem spells_compactItems : ∀ {items : List Json}, AreCarried items →
    List.Forall₂ Spells ((compactItems items).map String.toList) (itemTokens items)
  | [], _ => .nil
  | _ :: _, h => .cons (spells_compact h.1) (spells_compactItems h.2)

theorem spells_compactFields : ∀ {fields : List (String × Json)}, HaveCarriedValues fields →
    List.Forall₂ Spells ((compactFields fields).map String.toList) (fieldTokens fields)
  | [], _ => .nil
  | (key, value) :: _, h => by
    have hblank : ∀ c ∈ ([] : List Char), Lexeme.isSpace c = true := by simp
    have hfield := spells_field key hblank (spells_compact h.1)
    refine .cons ?_ (spells_compactFields h.2)
    simpa using hfield

end

/-! ## Depth -/

mutual

/-- How many arrays and objects lie in one another. -/
def depth : Json → Nat
  | .arr items => itemsDepth items + 1
  | .obj fields => fieldsDepth fields + 1
  | .null => 0
  | .bool _ => 0
  | .int _ => 0
  | .float _ => 0
  | .str _ => 0
  | .unreadable => 0

def itemsDepth : List Json → Nat
  | [] => 0
  | item :: rest => max (depth item) (itemsDepth rest)

def fieldsDepth : List (String × Json) → Nat
  | [] => 0
  | (_, value) :: rest => max (depth value) (fieldsDepth rest)

end

mutual

theorem limitDepth_of_depth_le : ∀ {j : Json} {levels : Nat}, j.depth ≤ levels →
    limitDepth levels j = j
  | .arr items, 0, h | .obj fields, 0, h => by simp [depth] at h
  | .arr items, levels + 1, h => by
    rw [limitDepth, limitItems_of_itemsDepth_le (Nat.le_of_succ_le_succ h)]
  | .obj fields, levels + 1, h => by
    rw [limitDepth, limitFields_of_fieldsDepth_le (Nat.le_of_succ_le_succ h)]
  | .null, _, _ | .bool _, _, _ | .int _, _, _ | .float _, _, _ | .str _, _, _
  | .unreadable, _, _ => by rw [limitDepth]

theorem limitItems_of_itemsDepth_le : ∀ {items : List Json} {levels : Nat},
    itemsDepth items ≤ levels → limitItems levels items = items
  | [], _, _ => rfl
  | item :: rest, levels, h => by
    rw [itemsDepth, Nat.max_le] at h
    rw [limitItems, limitDepth_of_depth_le h.1, limitItems_of_itemsDepth_le h.2]

theorem limitFields_of_fieldsDepth_le : ∀ {fields : List (String × Json)} {levels : Nat},
    fieldsDepth fields ≤ levels → limitFields levels fields = fields
  | [], _, _ => rfl
  | (key, value) :: rest, levels, h => by
    rw [fieldsDepth, Nat.max_le] at h
    rw [limitFields, limitDepth_of_depth_le h.1, limitFields_of_fieldsDepth_le h.2]

end

/-! ## Texts are read back -/

theorem parse?_of_spells {text : String} {j : Json} (hj : j.Carried)
    (h : Spells text.toList (tokens j)) : parse? text = some (limitDepth maxDepth j) := by
  rw [parse?, h, Option.bind_some, ofTokens?_tokens hj.isReadable, Option.map_some]

/-- **Only depth is lost by an indented text.** -/
theorem parse?_pretty {j : Json} (h : j.Carried) :
    parse? j.pretty = some (limitDepth maxDepth j) :=
  parse?_of_spells h (spells_prettyAt h 0)

/-- **Only depth is lost by a text on one line.** -/
theorem parse?_compact {j : Json} (h : j.Carried) :
    parse? j.compact = some (limitDepth maxDepth j) :=
  parse?_of_spells h (spells_compact h)

end AnnotationResolution.Json
