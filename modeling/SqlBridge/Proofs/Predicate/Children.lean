import SqlBridge.Predicate.Encoding
import SqlBridge.Proofs.Json.Record
import SqlBridge.Proofs.Predicate.Tree

/-!
# How many predicates a group joins

A predicate that is read from JSON has the groups that its record lists, each with as many children
as are listed. So it is the record alone that decides how small its groups are, be it an object or
an array: reading neither refuses a group without children nor collapses a group of one child.
-/

namespace SqlBridge.Predicate

open Json

/-- Every group joins `n` predicates at least. -/
inductive JoinsAtLeast (n : Nat) : Predicate → Prop where
  | comparison {field : String} {operator : Operator} {value : Value} :
      JoinsAtLeast n (.comparison field operator value)
  | pattern {field regex : String} {caseInsensitive : Bool} :
      JoinsAtLeast n (.pattern field regex caseInsensitive)
  | group {logic : Logic} {children : List Predicate} (enough : n ≤ children.length)
      (all : ∀ p ∈ children, JoinsAtLeast n p) : JoinsAtLeast n (.group logic children)

/-- The value is a record that calls itself a group of these children. -/
inductive Lists (isChild : Bool) : Json → List Json → Prop where
  | object {fields : List (String × Json)} {form : Json} {children : List Json}
      (typed : ("type", form) ∈ fields) (grouped : form? isChild form = some .group)
      (listed : ("children", .arr children) ∈ fields) : Lists isChild (.obj fields) children
  | array {form logic : Json} {children : List Json}
      (grouped : form? isChild form = some .group) :
      Lists isChild (.arr [form, logic, .arr children]) children

/-- Every record of a group, from the value itself downwards, lists `n` children at least. -/
inductive ListsAtLeast (n : Nat) : Bool → Json → Prop where
  | value {isChild : Bool} {v : Json}
      (enough : ∀ children, Lists isChild v children → n ≤ children.length)
      (all : ∀ children, Lists isChild v children → ∀ w ∈ children, ListsAtLeast n true w) :
      ListsAtLeast n isChild v

variable {readValue : Json → Option Value} {isChild : Bool} {n : Nat} {p : Predicate} {v : Json}
  {logic : Logic} {children : List Predicate}

theorem joinsAtLeast_group_iff : (group logic children).JoinsAtLeast n ↔
    n ≤ children.length ∧ ∀ p ∈ children, p.JoinsAtLeast n := by
  constructor
  · intro h
    cases h with
    | group enough all => exact ⟨enough, all⟩
  · rintro ⟨enough, all⟩
    exact .group enough all

theorem listsAtLeast_iff : ListsAtLeast n isChild v ↔ ∀ children, Lists isChild v children →
    n ≤ children.length ∧ ∀ w ∈ children, ListsAtLeast n true w := by
  constructor
  · rintro ⟨enough, all⟩ children listed
    exact ⟨enough children listed, all children listed⟩
  · intro h
    exact .value (fun children listed => (h children listed).1)
      fun children listed => (h children listed).2

theorem listsAtLeast_of_not_lists (none : ∀ children, ¬Lists isChild v children) :
    ListsAtLeast n isChild v :=
  listsAtLeast_iff.mpr fun children listed => absurd listed (none children)

theorem joinsAtLeast_two_iff : p.JoinsAtLeast 2 ↔ p.Grouped := by
  constructor
  · intro h
    induction h with
    | comparison => exact .comparison
    | pattern => exact .pattern
    | group enough _ ih => exact .group enough ih
  · intro h
    induction h with
    | comparison => exact .comparison
    | pattern => exact .pattern
    | group two _ ih => exact .group two ih

/-! ### Records -/

theorem parts_eq_map (fields : List (String × Json)) :
    parts readValue fields = fields.map fun e => (e.1, e.2, decodeArray? readValue e.2) := by
  induction fields with
  | nil => rfl
  | cons e fields ih => rw [parts, ih, List.map_cons]

/-- A part that is read is the only one of its name. -/
theorem part?_parts_eq_some {α : Type} {fields : List (String × Json)} {name : String}
    {read : Json × Option (List Predicate) → Option α} {a : α}
    (h : part? (parts readValue fields) name read = some a) :
    ∃ w, (∀ u, (name, u) ∈ fields ↔ u = w) ∧ read (w, decodeArray? readValue w) = some a := by
  have kept : (parts readValue fields).filter (·.1 = name) =
      (fields.filter (·.1 = name)).map fun e => (e.1, e.2, decodeArray? readValue e.2) := by
    rw [parts_eq_map, List.filter_map]
    rfl
  rw [part?, kept] at h
  rcases only : fields.filter (·.1 = name) with _ | ⟨e, _ | _⟩
  · rw [only] at h
    cases h
  · rw [only] at h
    exact ⟨e.2, mem_iff_of_filter only, h⟩
  · rw [only] at h
    cases h

/-- The fields are those of a group of these children. -/
def ListedIn (isChild : Bool) (fields : List (String × Json)) (children : List Json) : Prop :=
  ∃ form, ("type", form) ∈ fields ∧ form? isChild form = some .group ∧
    ("children", .arr children) ∈ fields

theorem lists_obj_iff {fields : List (String × Json)} {listed : List Json} :
    Lists isChild (.obj fields) listed ↔ ListedIn isChild fields listed := by
  constructor
  · rintro ⟨typed, grouped, here⟩
    exact ⟨_, typed, grouped, here⟩
  · rintro ⟨_, typed, grouped, here⟩
    exact .object typed grouped here

theorem lists_arr_iff {type : Json} {values listed : List Json} {form : Form}
    (typed : form? isChild type = some form) (complete : values.length = form.fields.length) :
    Lists isChild (.arr (type :: values)) listed ↔
      ListedIn isChild (("type" :: form.fields).zip (type :: values)) listed := by
  cases form with
  | group =>
    obtain ⟨logic, children, rfl⟩ := List.length_eq_two.mp complete
    constructor
    · rintro ⟨grouped⟩
      exact ⟨type, List.mem_cons_self, typed, by simp [Form.fields]⟩
    · rintro ⟨_, _, _, here⟩
      obtain rfl : .arr listed = children := by simpa [Form.fields] using here
      exact .array typed
  | comparison | pattern =>
    -- three fields, none of them the children
    obtain ⟨a, b, c, rfl⟩ := List.length_eq_three.mp complete
    constructor
    · rintro ⟨⟩
    · rintro ⟨_, _, _, here⟩
      simp [Form.fields] at here

theorem contents_eq_map (elements : List Json) :
    contents readValue elements = elements.map fun v => (v, decodeArray? readValue v) := by
  induction elements with
  | nil => rfl
  | cons v elements ih => rw [contents, ih, List.map_cons]

/-- An array is read as the fields that stand in it in their order. -/
theorem partsInOrder?_contents {elements : List Json} {ps : List Part}
    (h : partsInOrder? isChild (contents readValue elements) = some ps) :
    ∃ fields, ps = parts readValue fields ∧
      ∀ listed, Lists isChild (.arr elements) listed ↔ ListedIn isChild fields listed := by
  rcases elements with _ | ⟨type, values⟩
  · cases h
  · rw [contents, partsInOrder?] at h
    obtain ⟨form, typed, h⟩ := Option.bind_eq_some_iff.mp h
    obtain ⟨complete, ordered⟩ := Option.ite_none_right_eq_some.mp h
    rw [contents_eq_map, List.length_map] at complete
    refine ⟨("type" :: form.fields).zip (type :: values), ?_, fun _ => lists_arr_iff typed complete⟩
    rw [← Option.some.inj ordered, parts_eq_map, contents_eq_map, List.zip_cons_cons,
      List.zip_cons_cons, List.map_cons, List.zip_map_right]
    rfl

/-- What is read is a group of all the children that its fields list, or it is no group, and then
its fields list no children. -/
theorem ofParts?_eq_some {fields : List (String × Json)}
    (h : ofParts? readValue isChild (parts readValue fields) = some p) :
    (∃ logic children records, p = .group logic children ∧
        decodeList? readValue records = some children ∧
          ∀ listed, ListedIn isChild fields listed ↔ listed = records) ∨
      (∀ logic children, p ≠ .group logic children) ∧
        ∀ listed, ¬ListedIn isChild fields listed := by
  rw [ofParts?] at h
  obtain ⟨form, typed, h⟩ := Option.bind_eq_some_iff.mp h
  obtain ⟨w, only, formed⟩ := part?_parts_eq_some typed
  have lists (listed : List Json) : ListedIn isChild fields listed ↔
      form = .group ∧ ("children", .arr listed) ∈ fields := by
    constructor
    · rintro ⟨u, there, grouped, here⟩
      rw [(only u).mp there, formed] at grouped
      exact ⟨Option.some.inj grouped, here⟩
    · rintro ⟨rfl, here⟩
      exact ⟨w, (only w).mpr rfl, formed, here⟩
  cases form with
  | comparison =>
    simp only [Option.bind_eq_bind, Option.bind_eq_some_iff] at h
    obtain ⟨field, _, operator, _, value, _, ⟨⟩⟩ := h
    exact .inr ⟨by simp, by simp [lists]⟩
  | pattern =>
    simp only [Option.bind_eq_bind, Option.bind_eq_some_iff] at h
    obtain ⟨field, _, regex, _, caseInsensitive, _, ⟨⟩⟩ := h
    exact .inr ⟨by simp, by simp [lists]⟩
  | group =>
    simp only [Option.bind_eq_bind, Option.bind_eq_some_iff] at h
    obtain ⟨logic, _, children, given, ⟨⟩⟩ := h
    obtain ⟨array, there, read⟩ := part?_parts_eq_some given
    cases array with
    | arr records =>
      exact .inl ⟨logic, children, records, rfl, read, fun listed => by simp [lists, there]⟩
    | _ => cases read

/-- What is read is a group of all the children that its record lists, or it is no group, and then
its record lists no children. -/
theorem decode?_eq_some (h : decode? readValue isChild v = some p) :
    (∃ logic children records, p = .group logic children ∧
        decodeList? readValue records = some children ∧
          ∀ listed, Lists isChild v listed ↔ listed = records) ∨
      (∀ logic children, p ≠ .group logic children) ∧ ∀ listed, ¬Lists isChild v listed := by
  cases v with
  | obj fields =>
    simp only [lists_obj_iff]
    exact ofParts?_eq_some h
  | arr elements =>
    rw [decode?] at h
    obtain ⟨ps, ordered, h⟩ := Option.bind_eq_some_iff.mp h
    obtain ⟨fields, rfl, lists⟩ := partsInOrder?_contents ordered
    simp only [lists]
    exact ofParts?_eq_some h
  | _ => cases h

theorem length_of_decodeList? {records : List Json} {ps : List Predicate}
    (h : decodeList? readValue records = some ps) : ps.length = records.length := by
  induction records generalizing ps with
  | nil =>
    cases h
    rfl
  | cons v records ih =>
    simp only [decodeList?, Option.bind_eq_bind, Option.bind_eq_some_iff] at h
    obtain ⟨p, _, others, later, ⟨⟩⟩ := h
    rw [List.length_cons, List.length_cons, ih later]

/-! ### Trees -/

-- By recursion on the predicate: a record may list groups in parts that are never read.
mutual

/-- The groups of a predicate are as small as those of the record it is read from. -/
theorem joinsAtLeast_iff_of_decode? : ∀ {p : Predicate} {isChild : Bool} {v : Json},
    decode? readValue isChild v = some p → (p.JoinsAtLeast n ↔ ListsAtLeast n isChild v)
  | .comparison field operator value, isChild, v, h => by
    obtain ⟨_, _, _, ⟨⟩, _⟩ | ⟨_, none⟩ := decode?_eq_some h
    exact iff_of_true .comparison (listsAtLeast_of_not_lists none)
  | .pattern field regex caseInsensitive, isChild, v, h => by
    obtain ⟨_, _, _, ⟨⟩, _⟩ | ⟨_, none⟩ := decode?_eq_some h
    exact iff_of_true .pattern (listsAtLeast_of_not_lists none)
  | .group logic children, isChild, v, h => by
    obtain ⟨_, _, records, same, read, lists⟩ | ⟨leaf, _⟩ := decode?_eq_some h
    · cases same
      rw [joinsAtLeast_group_iff, listsAtLeast_iff, length_of_decodeList? read,
        joinsAtLeast_iff_of_decodeList? read]
      simp [lists]
    · exact absurd rfl (leaf logic children)

theorem joinsAtLeast_iff_of_decodeList? : ∀ {ps : List Predicate} {records : List Json},
    decodeList? readValue records = some ps →
      ((∀ p ∈ ps, p.JoinsAtLeast n) ↔ ∀ v ∈ records, ListsAtLeast n true v)
  | [], records, h => by
    obtain rfl := List.length_eq_zero_iff.mp (length_of_decodeList? h).symm
    simp
  | p :: ps, [], h => by cases h
  | p :: ps, v :: records, h => by
    simp only [decodeList?, Option.bind_eq_bind, Option.bind_eq_some_iff] at h
    obtain ⟨_, here, _, later, ⟨⟩⟩ := h
    rw [List.forall_mem_cons, List.forall_mem_cons, joinsAtLeast_iff_of_decode? here,
      joinsAtLeast_iff_of_decodeList? later]

end

end SqlBridge.Predicate
