import Mathlib.Data.List.Induction
import AnnotationResolution.Proofs.Codec.Metadata

/-!
# What a map remembers of its history

A `History` is a sequence of operations on a map that was empty at first.  `writes` is the list of the
names and values that it has written, in the order of time: an operation on a name that is already
there, or not there, may write nothing, one on all values changes what was written, and a map that is
collected anew, or read from a document, forgets what was written before it.

Whatever the operations were, the map comes out as if the writes had been inserted one by one
(`result_eq`).  So it has each name once, in the order in which the names were first written, with the
value that was written last.

* `names_ofList`, `get?_ofList_eq_some_iff`: names and values of pairs that are inserted one by one.
* `mapNamed_ofList`: it makes no difference whether values are changed before or afterwards.
* `history_exact`: what comes of any history.
-/

namespace AnnotationResolution

namespace Members

/-! ## Pairs inserted one by one -/

section Pairs

universe u v

variable {α : Type u} {β : Type v}

/-- The value of the last pair with a name. -/
def lastWritten? (writes : List (String × α)) (name : String) : Option α :=
  writes.reverse.lookup name

theorem ofList_concat (writes : List (String × α)) (name : String) (value : α) :
    ofList (writes ++ [(name, value)]) = (ofList writes).insert name value := by
  rw [ofList, List.foldl_append]
  rfl

/-- **The names are in the order of their first pairs.** -/
theorem names_ofList (writes : List (String × α)) :
    (ofList writes).names = (writes.map (·.1)).eraseDups := by
  induction writes using List.reverseRecOn with
  | nil => rfl
  | append_singleton writes write ih =>
    rw [ofList_concat, names_insert, ih, List.map_append, List.eraseDups_append, List.map_singleton]
    by_cases h : write.1 ∈ writes.map (·.1)
    · rw [if_pos (List.mem_eraseDups.mpr h)]
      simp [List.removeAll, h]
    · rw [if_neg (mt List.mem_eraseDups.mp h)]
      simp [List.removeAll, h, List.eraseDups_cons]

theorem get?_ofList (writes : List (String × α)) (name : String) :
    (ofList writes).get? name = lastWritten? writes name := by
  induction writes using List.reverseRecOn with
  | nil => rfl
  | append_singleton writes write ih =>
    rw [ofList_concat, get?_insert, ih, lastWritten?, lastWritten?, List.reverse_concat,
      List.lookup_cons]
    by_cases h : name = write.1
    · simp [h]
    · simp [h, beq_false_of_ne]

theorem get?_ofList_eq_none_iff {writes : List (String × α)} {name : String} :
    (ofList writes).get? name = none ↔ name ∉ writes.map (·.1) := by
  rw [get?_eq_none_iff, mem_names_ofList]

/-- **The value of a name is that of its last pair.** -/
theorem get?_ofList_eq_some_iff {writes : List (String × α)} {name : String} {value : α} :
    (ofList writes).get? name = some value ↔
      ∃ earlier later, writes = earlier ++ (name, value) :: later ∧ name ∉ later.map (·.1) := by
  constructor
  · intro h
    rw [get?_ofList, lastWritten?, List.lookup_eq_some_iff] at h
    obtain ⟨later, earlier, he, hlater⟩ := h
    refine ⟨earlier.reverse, later.reverse, ?_, ?_⟩
    · rw [← List.reverse_reverse writes, he, List.reverse_append, List.reverse_cons,
        List.append_assoc, List.singleton_append]
    · intro hmem
      obtain ⟨pair, hp, hname⟩ := List.mem_map.mp hmem
      have hne : (name != pair.1) = true := hlater pair (List.mem_reverse.mp hp)
      simp [hname] at hne
  · rintro ⟨earlier, later, rfl, hlater⟩
    exact get?_insertAll_last hlater ∅

theorem mapNamed_insert (change : String → α → β) (m : Members α) (name : String) (value : α) :
    (m.insert name value).mapNamed change =
      (m.mapNamed change).insert name (change name value) := by
  have hput : ∀ entries : List (String × α),
      (put name value entries).map (fun entry => (entry.1, change entry.1 entry.2)) =
        put name (change name value)
          (entries.map fun entry => (entry.1, change entry.1 entry.2)) := by
    intro entries
    induction entries with
    | nil => rfl
    | cons entry rest ih =>
      obtain ⟨key, old⟩ := entry
      by_cases h : key = name
      · simp [put, h]
      · simp [put, h, ih]
  exact congrArg Members.mk (hput m.entries)

/-- **Changing all values afterwards is changing them before.** -/
theorem mapNamed_ofList (change : String → α → β) (writes : List (String × α)) :
    (ofList writes).mapNamed change =
      ofList (writes.map fun write => (write.1, change write.1 write.2)) := by
  induction writes using List.reverseRecOn with
  | nil => rfl
  | append_singleton writes write ih =>
    rw [ofList_concat, mapNamed_insert, ih, List.map_append, List.map_singleton, ofList_concat]

end Pairs

/-! ## Histories -/

/-- The operations that a map has gone through, the last one outermost.  The values may change their
type on the way. -/
inductive History : Type → Type 1
  | empty {α : Type} : History α
  | insert {α : Type} (before : History α) (name : String) (value : α) : History α
  | insertIfNew {α : Type} (before : History α) (name : String) (value : α) : History α
  | upsert {α : Type} (before : History α) (name : String) (change : Option α → α) : History α
  | modify {α : Type} (before : History α) (name : String) (change : α → α) : History α
  | map {α β : Type} (before : History β) (change : β → α) : History α
  /-- Changes each value in its place, which the name tells. -/
  | mapNamed {α β : Type} (before : History β) (change : String → β → α) : History α
  | collect {α β : Type} (before : History β) (pairs : List (String × α)) : History α
  /-- Puts the map that a document stands for in place of the present one, which stays if the document
  cannot be read. -/
  | read {α : Type} (before : History α) (reader : Json → Option α) (document : Json) : History α

namespace History

/-- The map after the last operation. -/
def result {α : Type} : History α → Members α
  | empty => ∅
  | insert before name value => before.result.insert name value
  | insertIfNew before name value => before.result.insertIfNew name value
  | upsert before name change => before.result.upsert name change
  | modify before name change => before.result.modify name change
  | map before change => before.result.map change
  | mapNamed before change => before.result.mapNamed change
  | collect _ pairs => ofList pairs
  | read before reader document => (ofJson? reader document).getD before.result

/-- What was written, in the order of time. -/
def writes {α : Type} : History α → List (String × α)
  | empty => []
  | insert before name value => before.writes ++ [(name, value)]
  | insertIfNew before name value =>
    if name ∈ before.writes.map (·.1) then before.writes else before.writes ++ [(name, value)]
  | upsert before name change =>
    before.writes ++ [(name, change (lastWritten? before.writes name))]
  | modify before name change =>
    match lastWritten? before.writes name with
    | some value => before.writes ++ [(name, change value)]
    | none => before.writes
  | map before change => before.writes.map fun write => (write.1, change write.2)
  | mapNamed before change => before.writes.map fun write => (write.1, change write.1 write.2)
  | collect _ pairs => pairs
  | read before reader document => (listedPairs? reader document).getD before.writes

/-- **Any history comes to what its writes come to.** -/
theorem result_eq {α : Type} (h : History α) : h.result = ofList h.writes := by
  induction h with
  | empty => rfl
  | insert before name value ih => rw [result, writes, ofList_concat, ih]
  | insertIfNew before name value ih =>
    rw [result, writes, Members.insertIfNew, ih]
    by_cases h : name ∈ before.writes.map (·.1)
    · rw [if_pos h, if_pos (contains_eq_true_iff.mpr (mem_names_ofList.mpr h))]
    · rw [if_neg h, if_neg (mt (fun hc => mem_names_ofList.mp (contains_eq_true_iff.mp hc)) h),
        ofList_concat]
  | upsert before name change ih =>
    rw [result, writes, Members.upsert, ih, get?_ofList, ofList_concat]
  | modify before name change ih =>
    rw [result, writes, Members.modify, ih, get?_ofList]
    cases lastWritten? before.writes name with
    | some value => exact (ofList_concat ..).symm
    | none => rfl
  | map before change ih =>
    rw [result, writes, ih]
    exact mapNamed_ofList (fun _ => change) before.writes
  | mapNamed before change ih => rw [result, writes, ih, mapNamed_ofList]
  | collect before pairs ih => rfl
  | read before reader document ih =>
    rw [result, writes, ofJson?_eq, ih]
    cases listedPairs? reader document with
    | some pairs => rfl
    | none => rfl

end History

/-! ## Lists in a document -/

section Lists

variable {α : Type}

theorem listedPairs?_nil (reader : Json → Option α) :
    listedPairs? reader (.arr []) = some [] :=
  rfl

theorem listedPairs?_cons (reader : Json → Option α) (item : Json) (rest : List Json) :
    listedPairs? reader (.arr (item :: rest)) = do
      let record ← item.record? ["name", "value"] []
      let name ← Json.required record.fields "name" Json.str?
      let value ← Json.required record.fields "value" reader
      return (name, value) :: (← listedPairs? reader (.arr rest)) := by
  simp [listedPairs?, Json.list?, List.mapM_cons, Option.bind_assoc]

end Lists

/-- The members of an annotation are read as any other map. -/
theorem listedPairs?_expr (access : Json.Access) (items : List Json) :
    listedPairs? (Expr.ofJson? access) (.arr items) = Expr.entriesOfJson? access items := by
  induction items with
  | nil => rw [listedPairs?_nil, Expr.entriesOfJson?]
  | cons item rest ih =>
    rw [listedPairs?_cons, ih, Expr.entriesOfJson?]
    cases item.record? ["name", "value"] [] with
    | none => rfl
    | some record =>
      refine Option.bind_congr (o := Json.required record.fields "name" Json.str?) fun name _ => ?_
      split
      · next hv => simp [Json.required, hv]
      · next value hv => simp [Json.required, hv]

theorem listedPairs?_value (access : Json.Access) (items : List Json) :
    listedPairs? (Value.ofJson? access) (.arr items) = Value.entriesOfJson? access items := by
  induction items with
  | nil => rw [listedPairs?_nil, Value.entriesOfJson?]
  | cons item rest ih =>
    rw [listedPairs?_cons, ih, Value.entriesOfJson?]
    cases item.record? ["name", "value"] [] with
    | none => rfl
    | some record =>
      refine Option.bind_congr (o := Json.required record.fields "name" Json.str?) fun name _ => ?_
      split
      · next hv => simp [Json.required, hv]
      · next value hv => simp [Json.required, hv]

/-! ## Any history -/

/-- **A map in the order of insertion**, after some writes. -/
structure IsOrdered {α : Type} (m : Members α) (writes : List (String × α)) : Prop where
  /-- No name is there twice. -/
  nodup : m.names.Nodup
  /-- The names are in the order in which they were first written. -/
  names_eq : m.names = (writes.map (·.1)).eraseDups
  /-- A name has the value that was written for it last. -/
  get?_eq_some_iff : ∀ name value, m.get? name = some value ↔
    ∃ earlier later, writes = earlier ++ (name, value) :: later ∧ name ∉ later.map (·.1)
  get?_eq_none_iff : ∀ name, m.get? name = none ↔ name ∉ writes.map (·.1)

theorem isOrdered_ofList {α : Type} (writes : List (String × α)) :
    (ofList writes).IsOrdered writes where
  nodup := names_nodup_ofList writes
  names_eq := names_ofList writes
  get?_eq_some_iff _ _ := get?_ofList_eq_some_iff
  get?_eq_none_iff _ := get?_ofList_eq_none_iff

/-- **What comes of any history.**  The map is in the order of insertion; an insertion gives the value
that was there before, and one that only adds tells whether there was none, and else changes nothing.
A document is read by inserting what it lists, one pair after the other, and so are the members of
annotations.  A map that is written out as a list is read back as it was. -/
theorem history_exact {α : Type} (h : History α) :
    h.result.IsOrdered h.writes ∧
      (∀ name value,
        h.result.insertReplacing name value =
            (lastWritten? h.writes name, (h.insert name value).result) ∧
          h.result.insertIfAbsent name value =
            (decide (name ∉ h.writes.map (·.1)), (h.insertIfNew name value).result) ∧
          (name ∈ h.writes.map (·.1) → (h.insertIfNew name value).result = h.result)) ∧
      (∀ reader document,
        ofJson? reader document = (listedPairs? reader document).map (∅ : Members α).insertAll) ∧
      (∀ (reader : Json → Option α) (writer : α → Json) pairs,
        (∀ pair ∈ pairs, reader (writer pair.2) = some pair.2) →
          ofJson? reader (toJson writer ⟨pairs⟩) = some ((∅ : Members α).insertAll pairs)) ∧
      (∀ access items,
        ofJson? (Expr.ofJson? access) (.arr items) =
            (Expr.entriesOfJson? access items).map (∅ : Members Expr).insertAll ∧
          ofJson? (Value.ofJson? access) (.arr items) =
            (Value.entriesOfJson? access items).map (∅ : Members Value).insertAll) ∧
      ofList h.result.entries = h.result ∧
      ∀ (reader : Json → Option α) (writer : α → Json),
        (∀ value ∈ h.result.values, reader (writer value) = some value) →
          ofJson? reader (h.result.toJson writer) = some h.result := by
  have hordered : h.result.IsOrdered h.writes := h.result_eq ▸ isOrdered_ofList h.writes
  have hwritten : ∀ (reader : Json → Option α) (writer : α → Json) pairs,
      (∀ pair ∈ pairs, reader (writer pair.2) = some pair.2) →
        ofJson? reader (toJson writer ⟨pairs⟩) = some ((∅ : Members α).insertAll pairs) := by
    intro reader writer pairs hpairs
    rw [ofJson?_eq, listedPairs?_toJson hpairs]
    rfl
  have hagain : ofList h.result.entries = h.result := ofList_of_nodup hordered.nodup
  refine ⟨hordered, fun name value => ⟨?_, ?_, fun hmem => ?_⟩, ofJson?_eq, hwritten,
    fun access items => ⟨?_, ?_⟩, hagain, fun reader writer hvalues => ?_⟩
  · rw [insertReplacing, ← get?_ofList, ← h.result_eq]
    rfl
  · have hpresent : h.result.contains name = true ↔ name ∈ h.writes.map (·.1) := by
      rw [contains_eq_true_iff, h.result_eq, mem_names_ofList]
    rw [insertIfAbsent, Bool.eq_iff_iff.mpr (hpresent.trans decide_eq_true_iff.symm), decide_not]
    rfl
  · have hpresent : h.result.contains name = true := by
      rw [contains_eq_true_iff, h.result_eq]
      exact mem_names_ofList.mpr hmem
    exact if_pos hpresent
  · rw [ofJson?_eq, listedPairs?_expr]
    rfl
  · rw [ofJson?_eq, listedPairs?_value]
    rfl
  · have hentries : ∀ pair ∈ h.result.entries, reader (writer pair.2) = some pair.2 :=
      fun pair hp => hvalues pair.2 (List.mem_map_of_mem (f := (·.2)) hp)
    exact (hwritten reader writer _ hentries).trans (congrArg some hagain)

theorem history_exact_letters :
    let h : History String :=
      ((History.empty.insert "zeta" "1").insert "alpha" "2").modify "zeta" (· ++ "0")
    let pairs := [("a", "1"), ("b", "2"), ("a", "3")]
    h.result.names = ["zeta", "alpha"] ∧ h.result.get? "zeta" = some "10" ∧
      "alpha" ∈ h.writes.map (·.1) ∧ (h.insertIfNew "alpha" "20").result = h.result ∧
      (∀ pair ∈ pairs, Json.str? (.str pair.2) = some pair.2) ∧
      ofJson? Json.str? (toJson Json.str ⟨pairs⟩) = some ⟨[("a", "3"), ("b", "2")]⟩ ∧
      (∀ value ∈ h.result.values, Json.str? (.str value) = some value) ∧
      ofJson? Json.str? (h.result.toJson Json.str) = some h.result := by
  intro h pairs
  have hmem : "alpha" ∈ h.writes.map (·.1) := by decide
  have hpairs : ∀ pair ∈ pairs, Json.str? (.str pair.2) = some pair.2 := fun _ _ => rfl
  have hvalues : ∀ value ∈ h.result.values, Json.str? (.str value) = some value := fun _ _ => rfl
  obtain ⟨hordered, hinsert, -, hwritten, -, -, hback⟩ := history_exact h
  have hzeta : h.result.get? "zeta" = some "10" :=
    (hordered.get?_eq_some_iff _ _).mpr
      ⟨[("zeta", "1"), ("alpha", "2")], [], rfl, List.not_mem_nil⟩
  exact ⟨hordered.names_eq, hzeta, hmem, (hinsert "alpha" "20").2.2 hmem, hpairs,
    hwritten _ _ pairs hpairs, hvalues, hback _ _ hvalues⟩

end Members

end AnnotationResolution
