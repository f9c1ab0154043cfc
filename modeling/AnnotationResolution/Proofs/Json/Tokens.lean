import Mathlib.Data.List.TakeWhile
import Mathlib.Tactic.FinCases
import AnnotationResolution.Json.Token
import AnnotationResolution.Json.Writer

/-!
# Cutting a written text into tokens

A text that is put together from parts is cut where the parts meet, when a blank or a mark stands
there.  Of the parts, strings and integers are dealt with here: the text of each of them is one
token, which stands for what was written.

* `Lexeme.splitAt_append`, `Token.ofChars?_append`: a text is cut where its parts meet.
* `Token.ofChars?_quote`: a string is read back.
* `Token.ofChars?_toString`: an integer of 64 bits is read back.
-/

namespace AnnotationResolution.Json

namespace Lexeme

/-- What may follow a word or number without being taken for a part of it. -/
def Separated : List Char → Prop
  | [] => True
  | c :: _ => isSpace c = true ∨ isMark c = true

theorem splitAt_append {place : Place} {cs : List Char} {lexemes : List Lexeme}
    (h : splitAt place cs = some lexemes) {rest : List Char} (hr : Separated rest) :
    splitAt place (cs ++ rest) = (splitAt .between rest).map (lexemes ++ ·) := by
  induction place, cs using splitAt.induct generalizing lexemes with
  | case1 =>
    cases h
    simp
  | case2 read =>
    cases h
    cases rest with
    | nil => rfl
    | cons c rest =>
      by_cases hs : isSpace c = true
      · simp [splitAt, hs]
      · simp [splitAt, hs, hr.resolve_left hs]
        rfl
  | case3 => simp [splitAt] at h
  | case4 c cs hs ih =>
    rw [splitAt, if_pos hs] at h
    rw [List.cons_append, splitAt, if_pos hs]
    exact ih h
  | case5 c cs hs hm ih =>
    rw [splitAt, if_neg hs, if_pos hm] at h
    obtain ⟨later, hl, rfl⟩ := Option.map_eq_some_iff.mp h
    rw [List.cons_append, splitAt, if_neg hs, if_pos hm, ih hl, Option.map_map]
    rfl
  | case6 cs hs hm ih =>
    rw [splitAt, if_neg hs, if_neg hm, if_pos rfl] at h
    rw [List.cons_append, splitAt, if_neg hs, if_neg hm, if_pos rfl]
    exact ih h
  | case7 c cs hs hm hq ih =>
    rw [splitAt, if_neg hs, if_neg hm, if_neg hq] at h
    rw [List.cons_append, splitAt, if_neg hs, if_neg hm, if_neg hq]
    exact ih h
  | case8 read c cs hs ih =>
    rw [splitAt, if_pos hs] at h
    obtain ⟨later, hl, rfl⟩ := Option.map_eq_some_iff.mp h
    rw [List.cons_append, splitAt, if_pos hs, ih hl, Option.map_map]
    rfl
  | case9 read c cs hs hm ih =>
    rw [splitAt, if_neg hs, if_pos hm] at h
    obtain ⟨later, hl, rfl⟩ := Option.map_eq_some_iff.mp h
    rw [List.cons_append, splitAt, if_neg hs, if_pos hm, ih hl, Option.map_map]
    rfl
  | case10 read cs hs hm ih =>
    rw [splitAt, if_neg hs, if_neg hm, if_pos rfl] at h
    obtain ⟨later, hl, rfl⟩ := Option.map_eq_some_iff.mp h
    rw [List.cons_append, splitAt, if_neg hs, if_neg hm, if_pos rfl, ih hl, Option.map_map]
    rfl
  | case11 read c cs hs hm hq ih =>
    rw [splitAt, if_neg hs, if_neg hm, if_neg hq] at h
    rw [List.cons_append, splitAt, if_neg hs, if_neg hm, if_neg hq]
    exact ih h
  | case12 read c cs ih =>
    rw [splitAt] at h
    rw [List.cons_append, splitAt]
    exact ih h
  | case13 read cs ih =>
    rw [splitAt, if_pos rfl] at h
    obtain ⟨later, hl, rfl⟩ := Option.map_eq_some_iff.mp h
    rw [List.cons_append, splitAt, if_pos rfl, ih hl, Option.map_map]
    rfl
  | case14 read c cs hq ih =>
    rw [splitAt, if_neg hq] at h
    rw [List.cons_append, splitAt, if_neg hq]
    exact ih h

theorem splitAt_between_space {c : Char} (h : isSpace c = true) (rest : List Char) :
    splitAt .between (c :: rest) = splitAt .between rest := by
  rw [splitAt, if_pos h]

theorem splitAt_between_mark {c : Char} (h : isMark c = true) (rest : List Char) :
    splitAt .between (c :: rest) = (splitAt .between rest).map (mark c :: ·) := by
  have hs : ¬ isSpace c = true := by
    simp only [isMark, isSpace, List.contains_eq_mem, decide_eq_true_eq] at h ⊢
    fin_cases h <;> decide
  rw [splitAt, if_neg hs, if_pos h]

end Lexeme

namespace Token

open Lexeme

theorem ofChars?_append {cs : List Char} {tokens : List Token} (h : ofChars? cs = some tokens)
    {rest : List Char} (hr : Separated rest) :
    ofChars? (cs ++ rest) = (ofChars? rest).map (tokens ++ ·) := by
  obtain ⟨lexemes, hl, ht⟩ := Option.bind_eq_some_iff.mp h
  rw [ofChars?, ofChars?, Lexeme.split, splitAt_append hl hr, Lexeme.split]
  cases splitAt .between rest with
  | none => rfl
  | some later => simp [List.mapM_append, ht, Option.map_eq_bind]

theorem ofChars?_space {c : Char} (h : isSpace c = true) (rest : List Char) :
    ofChars? (c :: rest) = ofChars? rest := by
  rw [ofChars?, ofChars?, Lexeme.split, Lexeme.split, splitAt_between_space h]

theorem ofChars?_mark {c : Char} (h : isMark c = true) (rest : List Char) :
    ofChars? (c :: rest) = (ofChars? rest).map (mark c :: ·) := by
  rw [ofChars?, ofChars?, Lexeme.split, Lexeme.split, splitAt_between_mark h]
  cases splitAt .between rest with
  | none => rfl
  | some later => simp [ofLexeme?, Option.map_eq_bind]

/-! ## Strings -/

/-- A character is written as a short escape, as an escape with its code, or as itself. -/
theorem escapeChar_cases (c : Char) :
    (∃ e, shortEscape? e = some c ∧ escapeChar c = ['\\', e]) ∨
      (c.toNat < 0x20 ∧
        escapeChar c = ['\\', 'u', '0', '0', hexDigit (c.toNat / 16), hexDigit c.toNat]) ∨
      (c ≠ '"' ∧ c ≠ '\\' ∧ 0x20 ≤ c.toNat ∧ escapeChar c = [c]) := by
  rw [escapeChar]
  split
  · next h => exact .inl ⟨'"', by rw [h]; rfl, rfl⟩
  split
  · next h => exact .inl ⟨'\\', by rw [h]; rfl, rfl⟩
  split
  · next h => exact .inl ⟨'b', by rw [h]; rfl, rfl⟩
  split
  · next h => exact .inl ⟨'f', by rw [h]; rfl, rfl⟩
  split
  · next h => exact .inl ⟨'n', by rw [h]; rfl, rfl⟩
  split
  · next h => exact .inl ⟨'r', by rw [h]; rfl, rfl⟩
  split
  · next h => exact .inl ⟨'t', by rw [h]; rfl, rfl⟩
  split
  · next h => exact .inr (.inl ⟨h, rfl⟩)
  · next hq hb _ _ _ _ _ h => exact .inr (.inr ⟨hq, hb, Nat.le_of_not_lt h, rfl⟩)

theorem hexDigit_ne_quote (n : Nat) : hexDigit n ≠ '"' := Nat.digitChar_ne '"' rfl

theorem hexDigit_ne_backslash (n : Nat) : hexDigit n ≠ '\\' := Nat.digitChar_ne '\\' rfl

theorem hex4?_hexDigit {n : Nat} (h : n < 0x20) :
    hex4? '0' '0' (hexDigit (n / 16)) (hexDigit n) = some n := by
  have hall : ∀ n < 0x20, hex4? '0' '0' (hexDigit (n / 16)) (hexDigit n) = some n := by decide
  exact hall n h

/-- A character of the string is written so that the scanner does not leave the string. -/
theorem splitAt_escapeChar (c : Char) (read rest : List Char) :
    splitAt (.inQuotes false read) (escapeChar c ++ rest) =
      splitAt (.inQuotes false ((escapeChar c).reverse ++ read)) rest := by
  rcases escapeChar_cases c with ⟨e, -, he⟩ | ⟨-, he⟩ | ⟨hq, hb, -, he⟩
  · simp [he, splitAt]
  · simp [he, splitAt, hexDigit_ne_quote, hexDigit_ne_backslash]
  · simp [he, splitAt, hq, hb]

theorem ne_u_of_shortEscape? {e c : Char} (h : shortEscape? e = some c) : e ≠ 'u' := by
  rintro rfl
  cases h

theorem unescape?_escapeChar (c : Char) (rest : List Char) :
    unescape? (escapeChar c ++ rest) = (unescape? rest).map (c :: ·) := by
  rcases escapeChar_cases c with ⟨e, hs, he⟩ | ⟨hc, he⟩ | ⟨hq, hb, -, he⟩
  · simp [he, unescape?, ne_u_of_shortEscape? hs, hs, Option.map_eq_bind]
  · have hsingle : single? c.toNat = some c := by
      rw [single?, if_neg (by omega), Char.ofNat_toNat]
    rw [he]
    simp only [List.cons_append, List.nil_append]
    rw [unescape?.eq_def]
    split
    · next heq => cases heq
    · next heq =>
      cases heq
      simp [hex4?_hexDigit hc, hsingle, Option.map_eq_bind]
    · next heq =>
      cases heq
      simp [hex4?_hexDigit hc, hsingle, Option.map_eq_bind]
    · next hne heq =>
      cases heq
      exact absurd rfl (hne _ _ _ _ _ rfl)
    · next hne heq =>
      cases heq
      exact absurd rfl (hne _ _ rfl)
  · simp [he, unescape?, hb]

theorem isWellFormed_escapeChar (c : Char) (rest : List Char) :
    isWellFormed (escapeChar c ++ rest) = isWellFormed rest := by
  rcases escapeChar_cases c with ⟨e, hs, he⟩ | ⟨hc, he⟩ | ⟨hq, hb, hc, he⟩
  · simp [he, isWellFormed, ne_u_of_shortEscape? hs, hs]
  · simp [he, isWellFormed, hex4?_hexDigit hc]
  · simp [he, isWellFormed, hb, hc]

theorem splitAt_flatMap_escapeChar (cs read rest : List Char) :
    splitAt (.inQuotes false read) (cs.flatMap escapeChar ++ rest) =
      splitAt (.inQuotes false ((cs.flatMap escapeChar).reverse ++ read)) rest := by
  induction cs generalizing read with
  | nil => rfl
  | cons c cs ih => simp [splitAt_escapeChar, ih]

theorem unescape?_flatMap_escapeChar (cs : List Char) :
    unescape? (cs.flatMap escapeChar) = some cs := by
  induction cs with
  | nil => rw [List.flatMap_nil, unescape?]
  | cons c cs ih => rw [List.flatMap_cons, unescape?_escapeChar, ih, Option.map_some]

theorem isWellFormed_flatMap_escapeChar (cs : List Char) :
    isWellFormed (cs.flatMap escapeChar) = true := by
  induction cs with
  | nil => rw [List.flatMap_nil, isWellFormed]
  | cons c cs ih => rw [List.flatMap_cons, isWellFormed_escapeChar, ih]

/-- **A string is read back as it was written.** -/
theorem ofChars?_quote (s : String) : ofChars? (quote s).toList = some [.text (some s)] := by
  have hsplit : Lexeme.split (quote s).toList =
      some [.quoted (s.toList.flatMap escapeChar)] := by
    rw [quote, String.toList_ofList, Lexeme.split]
    simp [splitAt, splitAt_flatMap_escapeChar, isSpace, isMark]
  rw [ofChars?, hsplit]
  simp [ofLexeme?, isWellFormed_flatMap_escapeChar, unescape?_flatMap_escapeChar]

/-! ## Words -/

/-- No blank, mark or quote, so it does not end a word. -/
def InWord (c : Char) : Prop := isSpace c = false ∧ isMark c = false ∧ c ≠ '"'

theorem splitAt_inWord {cs : List Char} (h : ∀ c ∈ cs, InWord c) (read : List Char) :
    splitAt (.inWord read) cs = some [.word (read.reverse ++ cs)] := by
  induction cs generalizing read with
  | nil => simp [splitAt]
  | cons c cs ih =>
    rw [List.forall_mem_cons] at h
    obtain ⟨⟨hs, hm, hq⟩, hcs⟩ := h
    simp [splitAt, hs, hm, hq, ih hcs]

theorem split_word {c : Char} {cs : List Char} (h : ∀ d ∈ c :: cs, InWord d) :
    Lexeme.split (c :: cs) = some [.word (c :: cs)] := by
  rw [List.forall_mem_cons] at h
  obtain ⟨⟨hs, hm, hq⟩, hcs⟩ := h
  simp [Lexeme.split, splitAt, hs, hm, hq, splitAt_inWord hcs]

theorem inWord_of_isDigit {c : Char} (h : c.isDigit = true) : InWord c := by
  refine ⟨Bool.eq_false_iff.mpr fun hs => ?_, Bool.eq_false_iff.mpr fun hm => ?_, ?_⟩
  · simp only [isSpace, List.contains_eq_mem, decide_eq_true_eq] at hs
    fin_cases hs <;> cases h
  · simp only [isMark, List.contains_eq_mem, decide_eq_true_eq] at hm
    fin_cases hm <;> cases h
  · rintro rfl
    cases h

end Token

/-! ## Integers -/

namespace NumberText

theorem le_ofDigitChars (cs : List Char) (init : Nat) : init ≤ Nat.ofDigitChars 10 cs init := by
  rw [Nat.ofDigitChars_eq_ofDigitChars_zero]
  have : init ≤ 10 ^ cs.length * init := Nat.le_mul_of_pos_left init (Nat.pow_pos (by decide))
  omega

/-- Digits of a number that fits into 64 bits are all taken in. -/
theorem absorb_eq {cs : List Char} {significand : Nat}
    (h : Nat.ofDigitChars 10 cs significand < UInt64.size) :
    absorb significand cs = (Nat.ofDigitChars 10 cs significand, 0) := by
  induction cs generalizing significand with
  | nil => rw [absorb, Nat.ofDigitChars_nil]
  | cons c cs ih =>
    rw [Nat.ofDigitChars_cons, Nat.mul_comm 10] at h ⊢
    have hnext : significand * 10 + digitValue c < UInt64.size :=
      Nat.lt_of_le_of_lt (le_ofDigitChars cs _) h
    rw [absorb, if_pos hnext]
    exact ih h

theorem digits?_toDigits (n : Nat) :
    digits? (Nat.toDigits 10 n) = some (Nat.toDigits 10 n, []) := by
  have hall : ∀ c ∈ Nat.toDigits 10 n, c.isDigit = true := fun c hc =>
    Nat.isDigit_of_mem_toDigits (by decide) (by decide) hc
  rw [digits?, List.takeWhile_eq_self_iff.mpr hall, List.dropWhile_eq_nil_iff.mpr hall]
  cases hd : Nat.toDigits 10 n with
  | nil => exact absurd hd Nat.toDigits_ne_nil
  | cons c cs => rfl

/-- Only the number zero begins with the digit zero. -/
theorem head?_toDigits_ne_zero {n : Nat} (h : 0 < n) :
    (Nat.toDigits 10 n).head? ≠ some '0' := by
  induction n using Nat.strong_induction_on with
  | _ n ih =>
    by_cases hn : n < 10
    · rw [Nat.toDigits_of_lt_base hn]
      simp only [List.head?_cons, ne_eq, Option.some.injEq, Nat.digitChar_eq_zero]
      omega
    · rw [Nat.toDigits_of_base_le (by decide) (Nat.le_of_not_lt hn),
        List.head?_append_of_ne_nil _ Nat.toDigits_ne_nil]
      exact ih (n / 10) (by omega) (by omega)

theorem no_leading_zero (n : Nat) :
    ¬ ((Nat.toDigits 10 n).head? = some '0' ∧ (Nat.toDigits 10 n).length ≠ 1) := by
  rintro ⟨hhead, hlength⟩
  cases n with
  | zero => exact hlength (by rw [Nat.toDigits_zero]; rfl)
  | succ n => exact head?_toDigits_ne_zero (Nat.succ_pos n) hhead

theorem ofChars?_neg_toDigits (n : Nat) :
    ofChars? ('-' :: Nat.toDigits 10 n) = some ⟨true, Nat.toDigits 10 n, none, none⟩ := by
  simp [ofChars?, digits?_toDigits, no_leading_zero, exponent?]

theorem ofChars?_toDigits (n : Nat) :
    ofChars? (Nat.toDigits 10 n) = some ⟨false, Nat.toDigits 10 n, none, none⟩ := by
  have hminus : ∀ rest, Nat.toDigits 10 n ≠ '-' :: rest := by
    intro rest he
    have hd : '-'.isDigit = true :=
      Nat.isDigit_of_mem_toDigits (by decide) (by decide) (he ▸ List.mem_cons_self)
    cases hd
  simp [ofChars?, digits?_toDigits, no_leading_zero, exponent?]

/-- The integers of 64 bits, signed or not. -/
def IsInteger64 (n : Int) : Prop := Int64.minValue.toInt ≤ n ∧ n < UInt64.size

theorem value?_toDigits {n : Nat} (h : n < UInt64.size) :
    value? ⟨false, Nat.toDigits 10 n, none, none⟩ = some (.int n) := by
  have habsorb : absorb 0 (Nat.toDigits 10 n) = (n, 0) := by
    rw [absorb_eq (by rwa [Nat.ofDigitChars_ten_toDigits]), Nat.ofDigitChars_ten_toDigits]
  simp [value?, habsorb, isWhole]

theorem value?_neg_toDigits {n : Nat} (hpos : 0 < n) (h : Int64.minValue.toInt ≤ -(n : Int)) :
    value? ⟨true, Nat.toDigits 10 n, none, none⟩ = some (.int (-n)) := by
  have hle : n ≤ 9223372036854775808 := by
    have : Int64.minValue.toInt = -9223372036854775808 := rfl
    omega
  have hsize : n < UInt64.size := Nat.lt_of_le_of_lt hle (by decide)
  have habsorb : absorb 0 (Nat.toDigits 10 n) = (n, 0) := by
    rw [absorb_eq (by rwa [Nat.ofDigitChars_ten_toDigits]), Nat.ofDigitChars_ten_toDigits]
  have hrange : (0 < n && Int64.minValue.toInt ≤ -(n : Int)) = true := by
    rw [decide_eq_true hpos, decide_eq_true h, Bool.and_true]
  simp only [value?, habsorb, isWhole, Option.isNone_none, beq_self_eq_true, Bool.true_and,
    Bool.not_true, Bool.and_false, Bool.false_eq_true, hrange, ↓reduceIte]

end NumberText

namespace Token

theorem ofChars?_number {c : Char} {cs : List Char} (h : ∀ d ∈ c :: cs, InWord d)
    (hc : c = '-' ∨ c.isDigit = true) {n : NumberText} {j : Json}
    (hn : NumberText.ofChars? (c :: cs) = some n) (hj : n.value? = some j) :
    ofChars? (c :: cs) = some [.scalar j] := by
  have hword : c ≠ 'n' ∧ c ≠ 't' ∧ c ≠ 'f' := by
    refine ⟨?_, ?_, ?_⟩ <;> rintro rfl <;> rcases hc with hc | hc <;> cases hc
  rw [ofChars?, split_word h]
  simp [ofLexeme?, hword, hn, hj]

/-- **An integer is read back as it was written.** -/
theorem ofChars?_toString {n : Int} (h : NumberText.IsInteger64 n) :
    ofChars? (toString n).toList = some [.scalar (.int n)] := by
  have hdigit : ∀ m : Nat, ∀ d ∈ Nat.toDigits 10 m, d.isDigit = true := fun m d hd =>
    Nat.isDigit_of_mem_toDigits (by decide) (by decide) hd
  cases n with
  | ofNat m =>
    obtain ⟨c, cs, hcs⟩ := List.exists_cons_of_ne_nil (Nat.toDigits_ne_nil (n := m) (b := 10))
    have htext : (toString (Int.ofNat m)).toList = c :: cs := by
      rw [← hcs]
      exact Nat.toList_repr
    have hnumber := NumberText.ofChars?_toDigits m
    have hvalue : NumberText.value? ⟨false, Nat.toDigits 10 m, none, none⟩ = some (.int m) :=
      NumberText.value?_toDigits (Int.ofNat_lt.mp h.2)
    have hd := hdigit m
    rw [hcs] at hnumber hd
    rw [htext]
    rw [hcs] at hvalue
    exact ofChars?_number (fun d hm => inWord_of_isDigit (hd d hm))
      (.inr (hd c List.mem_cons_self)) hnumber hvalue
  | negSucc m =>
    have htext : (toString (Int.negSucc m)).toList = '-' :: Nat.toDigits 10 (m + 1) := by
      have : toString (Int.negSucc m) = "-" ++ toString (m + 1) := rfl
      rw [this, String.toList_append]
      exact congrArg ('-' :: ·) Nat.toList_repr
    have hvalue : NumberText.value? ⟨true, Nat.toDigits 10 (m + 1), none, none⟩ =
        some (.int (Int.negSucc m)) :=
      NumberText.value?_neg_toDigits (Nat.succ_pos m) h.1
    rw [htext]
    refine ofChars?_number (List.forall_mem_cons.mpr ⟨?_, fun d hm => ?_⟩) (.inl rfl)
      (NumberText.ofChars?_neg_toDigits (m + 1)) hvalue
    · exact ⟨rfl, rfl, by decide⟩
    · exact inWord_of_isDigit (hdigit (m + 1) d hm)

end Token

end AnnotationResolution.Json
