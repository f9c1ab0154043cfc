import Mathlib.Data.List.Nodup
import AnnotationResolution.Json.Tag

/-!
# Reading back what was written

The look-ups of a reader on the fields that a writer has put there, one field after the other, and
the readers of plain values on what they were written as.

* `required_cons_self`, `orElse_cons_self`: the field is the first one.
* `required_cons_of_ne`, `optional_cons_of_ne`, `orElse_cons_of_ne`: it is not.
* `record?_obj`, `tagged?_obj`, `variant?_obj`: an object with different keys is taken for what it is.
* `record?_eq_none_of_repeated`, `fields_record?_arr`: no key may come again, and an array of values is
  as good as an object.
* `list?_ofList`, `optional_ofOption`: a list and an optional value are read back if their items
  are.
-/

namespace AnnotationResolution.Json

/-! ## Plain values -/

@[simp] theorem str?_str (s : String) : str? (.str s) = some s := rfl

@[simp] theorem bool?_bool (b : Bool) : bool? (.bool b) = some b := rfl

@[simp] theorem float?_float (x : Float) : float? (.float x) = some x := rfl

@[simp] theorem char?_singleton (c : Char) : char? (.str (String.singleton c)) = some c := by
  simp [char?]

@[simp] theorem nat?_natCast (n : Nat) : nat? (.int n) = some n := by simp [nat?]

@[simp] theorem int64?_toInt (n : Int64) : int64? (.int n.toInt) = some n := by
  rw [int64?, if_pos ⟨n.minValue_le_toInt, n.toInt_le⟩, Int64.ofInt_toInt]

@[simp] theorem wordText?_str (access : Access) (s : String) : wordText? access (.str s) = some s :=
  rfl

@[simp] theorem form?_str (forms : List String) (access : Access) (s : String) :
    form? forms access (.str s) = some s := rfl

/-! ## Fields -/

section Fields

universe u

variable {α : Type u} {key name : String} {value : Json} {rest : List (String × Json)}
  {read : Json → Option α} {default : α}

/-- This holds by computation, so it also opens a look-up that a reader refers to afterwards. -/
@[simp] theorem field?_cons : field? ((name, value) :: rest) key =
    match key == name with
    | true => some value
    | false => field? rest key := rfl

@[simp] theorem field?_nil : field? [] key = none := rfl

theorem field?_cons_self : field? ((key, value) :: rest) key = some value := by simp

theorem field?_cons_of_ne (h : key ≠ name) :
    field? ((name, value) :: rest) key = field? rest key := by
  rw [field?_cons, beq_false_of_ne h]

@[simp] theorem required_cons_self : required ((key, value) :: rest) key read = read value := by
  simp [required]

@[simp] theorem required_cons_of_ne (h : key ≠ name) :
    required ((name, value) :: rest) key read = required rest key read := by
  rw [required, required, field?_cons_of_ne h]

@[simp] theorem orElse_cons_self :
    orElse ((key, value) :: rest) key read default = read value := by
  simp [orElse]

@[simp] theorem orElse_cons_of_ne (h : key ≠ name) :
    orElse ((name, value) :: rest) key read default = orElse rest key read default := by
  rw [orElse, orElse, field?_cons_of_ne h]

@[simp] theorem optional_cons_of_ne (h : key ≠ name) :
    optional ((name, value) :: rest) key read = optional rest key read := by
  rw [optional, optional, field?_cons_of_ne h]

@[simp] theorem accessBeside?_cons_self (access : Access) (tag : String) :
    accessBeside? access tag key ((tag, value) :: rest) = some access := by
  simp [accessBeside?]

end Fields

/-! ## Records and forms -/

section Records

variable {fields : List (String × Json)} {tag key form : String} {content : Json} {access : Access}

/-- Whatever the keys are, an object that has each of its fields once is taken for the record. -/
theorem namesOnce_of_nodup (h : (fields.map (·.1)).Nodup) (keys : List String) :
    namesOnce keys fields = true := by
  rw [namesOnce, List.all_eq_true]
  exact fun key _ => decide_eq_true (List.nodup_iff_count_le_one.mp h key)

@[simp] theorem record?_obj (h : (fields.map (·.1)).Nodup) (keys more : List String) :
    record? keys more (.obj fields) = some ⟨fields, sizeOf_field_lt⟩ := by
  rw [record?, if_pos (namesOnce_of_nodup h _)]

/-- A key of the record that is there twice makes the object unreadable. -/
theorem record?_eq_none_of_repeated {keys more : List String} (hkey : key ∈ keys ++ more)
    (h : 1 < (fields.map (·.1)).count key) : record? keys more (.obj fields) = none := by
  refine if_neg fun honce => ?_
  have hcount := of_decide_eq_true (List.all_eq_true.mp honce key hkey)
  omega

/-- An array of values stands for the object that has them under the keys. -/
theorem fields_record?_arr {keys more : List String} {values : List Json}
    (hkeys : (keys ++ more).Nodup) (hlength : values.length = (keys ++ more).length) :
    (record? keys more (.arr values)).map Record.fields =
      (record? keys more (.obj ((keys ++ more).zip values))).map Record.fields := by
  have hle : keys.length ≤ values.length := by
    rw [hlength, List.length_append]
    exact Nat.le_add_right _ _
  have hnodup : (((keys ++ more).zip values).map (·.1)).Nodup := by
    rwa [List.map_fst_zip (Nat.le_of_eq hlength.symm)]
  rw [record?_obj hnodup, record?, if_pos ⟨hle, Nat.le_of_eq hlength⟩]
  rfl

@[simp] theorem tagged?_obj (h : tag ≠ key) (forms : List String) :
    tagged? tag key forms access (.obj [(tag, .str form), (key, content)]) =
      some ⟨form, access, some content, by
        rintro _ ⟨⟩
        exact sizeOf_field_lt ((field?_cons_of_ne h.symm).trans field?_cons_self)⟩ := by
  simp [tagged?, h, beq_false_of_ne h.symm]

@[simp] theorem tagged?_obj_bare (h : tag ≠ key) (forms : List String) :
    tagged? tag key forms access (.obj [(tag, .str form)]) =
      some ⟨form, access, none, fun h => by cases h⟩ := by
  simp [tagged?, beq_false_of_ne h.symm]

@[simp] theorem variant?_obj (h : (((tag, Json.str form) :: fields).map (·.1)).Nodup)
    (forms : List (String × List String × List String)) :
    variant? tag forms access (.obj ((tag, .str form) :: fields)) =
      (forms.lookup form).map fun _ => ⟨⟨(tag, .str form) :: fields, sizeOf_field_lt⟩, form⟩ := by
  simp only [variant?, record?_obj h]
  cases hf : forms.lookup form <;> simp [hf]

end Records

/-! ## Lists and optional values -/

section Parts

variable {α : Type} {read : Json → Option α} {write : α → Json}

theorem list?_ofList {items : List α} (h : ∀ a ∈ items, read (write a) = some a) :
    list? read (ofList write items) = some items := by
  rw [ofList, list?]
  induction items with
  | nil => rfl
  | cons a rest ih =>
    rw [List.forall_mem_cons] at h
    simp [h.1, ih h.2]

theorem optional_ofOption {key : String} {rest : List (String × Json)} {value : Option α}
    (h : ∀ a ∈ value, read (write a) = some a) (hn : ∀ a ∈ value, write a ≠ .null) :
    optional ((key, ofOption write value) :: rest) key read = some value := by
  rw [optional, field?_cons_self]
  cases value with
  | none => rfl
  | some a =>
    rw [ofOption]
    split
    · next heq => cases heq
    · next heq => exact absurd (Option.some.inj heq) (hn a rfl)
    · next found hne heq =>
      cases heq
      rw [h a rfl]
      rfl

/-- A list of strings, of which each is read back. -/
@[simp] theorem list?_ofList_str (items : List String) :
    list? str? (ofList Json.str items) = some items :=
  list?_ofList fun _ _ => rfl

end Parts

end AnnotationResolution.Json
