import SqlBridge.Proofs.Document.Filter
import SqlBridge.Proofs.Predicate.Children

/-!
# Connectives over nothing

In a filter document only a group is written as a list, under its connective, and the list has a
document for each of its children. So a document has a connective over an empty list exactly if
some group in the predicate joins nothing. The rest of a pipeline or a command may have keys that
are named like a connective, but these lead to scalars.
-/

namespace SqlBridge

/-- A JSON value occurs in itself and in whatever its occurrences are elements or fields of. -/
inductive Json.Occurs (v : Json) : Json → Prop where
  | here : Occurs v v
  | element {w : Json} {elements : List Json} (listed : w ∈ elements) (inside : Occurs v w) :
      Occurs v (.arr elements)
  | field {e : String × Json} {fields : List (String × Json)} (listed : e ∈ fields)
      (inside : Occurs v e.2) : Occurs v (.obj fields)

/-- Whether a value is neither an array nor an object. -/
def Json.isScalar : Json → Bool
  | .arr _ | .obj _ => false
  | _ => true

namespace Document

/-- No object, however deep, has a connective with an empty list. -/
def ConnectivesFilled (j : Json) : Prop :=
  ∀ fields, Json.Occurs (.obj fields) j → ∀ logic, (connectiveKey logic, .arr []) ∉ fields

variable {v : Value} {d : Descriptor} {j c : Json} {p : Predicate} {key : String} {logic : Logic}
  {fields rest : List (String × Json)} {query o : Option Json} {stages : List Json}

theorem connectiveOf?_eq_none_iff :
    connectiveOf? key = none ↔ ∀ logic, connectiveKey logic ≠ key := by
  rw [Option.eq_none_iff_forall_ne_some]
  exact forall_congr' fun logic => not_congr (connectiveOf?_eq_some_iff.trans eq_comm)

theorem connectivesFilled_of_isScalar (scalar : j.isScalar = true) : ConnectivesFilled j := by
  intro fields occurs
  cases occurs with
  | here | element | field => cases scalar

theorem connectivesFilled_str (s : String) : ConnectivesFilled (.str s) :=
  connectivesFilled_of_isScalar rfl

theorem connectivesFilled_bool (b : Bool) : ConnectivesFilled (.bool b) :=
  connectivesFilled_of_isScalar rfl

theorem connectivesFilled_int (i : Int) : ConnectivesFilled (.int i) :=
  connectivesFilled_of_isScalar rfl

theorem connectivesFilled_arr_iff {elements : List Json} :
    ConnectivesFilled (.arr elements) ↔ ∀ j ∈ elements, ConnectivesFilled j := by
  constructor
  · intro h j listed fields occurs
    exact h fields (.element listed occurs)
  · intro h fields occurs
    cases occurs with
    | element listed inside => exact h _ listed fields inside

theorem connectivesFilled_obj_iff : ConnectivesFilled (.obj fields) ↔
    (∀ logic, (connectiveKey logic, .arr []) ∉ fields) ∧ ∀ e ∈ fields, ConnectivesFilled e.2 := by
  constructor
  · intro h
    exact ⟨h fields .here, fun e listed inner occurs => h inner (.field listed occurs)⟩
  · rintro ⟨here, below⟩ inner occurs
    cases occurs with
    | here => exact here
    | field listed inside => exact below _ listed inner inside

theorem connectivesFilled_obj_append_iff : ConnectivesFilled (.obj (fields ++ rest)) ↔
    ConnectivesFilled (.obj fields) ∧ ConnectivesFilled (.obj rest) := by
  simp only [connectivesFilled_obj_iff, List.mem_append, not_or, or_imp, forall_and]
  exact and_and_and_comm

theorem connectivesFilled_obj_nil : ConnectivesFilled (.obj []) := by
  simp [connectivesFilled_obj_iff]

/-- An entry is filled if its value is, unless it is a connective over an empty list. -/
theorem connectivesFilled_entry_iff (plain : ∀ logic, (connectiveKey logic, .arr []) ≠ (key, j)) :
    ConnectivesFilled (.obj [(key, j)]) ↔ ConnectivesFilled j := by
  rw [connectivesFilled_obj_iff, List.forall_mem_singleton]
  exact and_iff_right fun logic listed => plain logic (List.mem_singleton.mp listed)

theorem connectivesFilled_connective_iff {branches : List Json} :
    ConnectivesFilled (.obj [(connectiveKey logic, .arr branches)]) ↔
      branches ≠ [] ∧ ∀ j ∈ branches, ConnectivesFilled j := by
  rw [connectivesFilled_obj_iff, List.forall_mem_singleton, connectivesFilled_arr_iff]
  refine and_congr_left fun _ => ?_
  constructor
  · rintro h rfl
    exact h logic (List.mem_singleton_self _)
  · intro some other listed
    have same := List.mem_singleton.mp listed
    exact some (Json.arr.inj (Prod.ext_iff.mp same).2).symm

/-- Under other keys lists may be empty. -/
theorem connectivesFilled_cons_iff (apart : connectiveOf? key = none) :
    ConnectivesFilled (.obj ((key, j) :: rest)) ↔
      ConnectivesFilled j ∧ ConnectivesFilled (.obj rest) := by
  have plain (logic : Logic) : (connectiveKey logic, .arr []) ≠ (key, j) := fun same =>
    connectiveOf?_eq_none_iff.mp apart logic (Prod.ext_iff.mp same).1
  rw [← List.singleton_append, connectivesFilled_obj_append_iff, connectivesFilled_entry_iff plain]

/-- Entries of any keys lead to scalars. -/
theorem connectivesFilled_scalars (scalars : ∀ e ∈ fields, e.2.isScalar = true) :
    ConnectivesFilled (.obj fields) := by
  rw [connectivesFilled_obj_iff]
  constructor
  · intro logic listed
    cases scalars _ listed
  · exact fun e listed => connectivesFilled_of_isScalar (scalars e listed)

theorem connectivesFilled_document (scalars : ∀ e ∈ fields, e.2.isScalar = true) :
    ConnectivesFilled (document fields) :=
  connectivesFilled_scalars fun e listed => scalars e (OrderedMap.mem_entries_ofList listed)

/-! ### Filters -/

theorem isScalar_of_value (written : value v = .ok j) : j.isScalar = true := by
  have read := valueOf?_eq_some_iff.mpr written
  cases j with
  | arr | obj => cases read
  | null | bool | int | float | str => rfl
  | unreadable => cases read

theorem connectivesFilled_comparison {field : String} {operator : Operator}
    (written : value v = .ok j) : ConnectivesFilled (.obj [(field, condition operator j)]) := by
  have scalar := isScalar_of_value written
  have plain (logic : Logic) :
      (connectiveKey logic, .arr []) ≠ (field, condition operator j) := fun same =>
    condition_ne_arr (value_ne_arr written) [] (Prod.ext_iff.mp same).2.symm
  rw [connectivesFilled_entry_iff plain, condition]
  split
  · exact connectivesFilled_of_isScalar scalar
  · exact connectivesFilled_scalars (List.forall_mem_singleton.mpr scalar)

mutual

/-- The filter document of a predicate has no connective over an empty list exactly if each of its
groups joins something. -/
theorem connectivesFilled_filter_iff : ∀ {p : Predicate} {j : Json}, filter p = .ok j →
    (ConnectivesFilled j ↔ p.JoinsAtLeast 1)
  | .comparison field operator v, j, written => by
    rw [filter] at written
    obtain ⟨k, known, same⟩ := Sql.exists_of_bind_eq_ok written
    obtain rfl := Except.ok.inj same
    exact iff_of_true (connectivesFilled_comparison known) .comparison
  | .pattern field regex caseInsensitive, j, written => by
    rw [filter] at written
    obtain rfl := Except.ok.inj written
    rw [connectivesFilled_entry_iff (by simp)]
    refine iff_of_true (connectivesFilled_scalars ?_) .pattern
    cases caseInsensitive <;> simp [Json.isScalar]
  | .group logic children, j, written => by
    rw [filter] at written
    obtain ⟨branches, known, same⟩ := Sql.exists_of_bind_eq_ok written
    obtain rfl := Except.ok.inj same
    obtain ⟨length, inner⟩ := connectivesFilled_filters_iff known
    rw [connectivesFilled_connective_iff, Predicate.joinsAtLeast_group_iff, inner,
      ← List.length_pos_iff, length]
    rfl

/-- Each branch belongs to one predicate. -/
theorem connectivesFilled_filters_iff : ∀ {ps : List Predicate} {js : List Json},
    filters ps = .ok js → js.length = ps.length ∧
      ((∀ j ∈ js, ConnectivesFilled j) ↔ ∀ p ∈ ps, p.JoinsAtLeast 1)
  | [], js, written => by
    rw [filters] at written
    obtain rfl := Except.ok.inj written
    simp
  | p :: rest, js, written => by
    rw [filters] at written
    obtain ⟨first, here, written⟩ := Sql.exists_of_bind_eq_ok written
    obtain ⟨others, behind, same⟩ := Sql.exists_of_bind_eq_ok written
    obtain rfl := Except.ok.inj same
    obtain ⟨length, inner⟩ := connectivesFilled_filters_iff behind
    rw [List.length_cons, List.length_cons, length, List.forall_mem_cons, List.forall_mem_cons,
      connectivesFilled_filter_iff here, inner]
    exact ⟨rfl, Iff.rfl⟩

end

theorem connectivesFilled_filterDocument?_iff (written : filterDocument? d = .ok query) :
    (∀ q ∈ query, ConnectivesFilled q) ↔ ∀ p ∈ d.filter, p.JoinsAtLeast 1 := by
  cases filtered : d.filter with
  | none =>
    rw [filterDocument?, filtered] at written
    obtain rfl := Except.ok.inj written
    simp
  | some p =>
    obtain ⟨q, known, rfl⟩ := filter_of_written filtered written
    simp [connectivesFilled_filter_iff known]

/-! ### Stages -/

theorem connectivesFilled_stage_iff (apart : connectiveOf? key = none) :
    (∀ s ∈ stage key o, ConnectivesFilled s) ↔ ∀ j ∈ o, ConnectivesFilled j := by
  cases o with
  | none => simp [stage]
  | some body =>
    simp [stage, connectivesFilled_cons_iff apart, connectivesFilled_obj_nil]

theorem connectivesFilled_sort? : ∀ j ∈ sort? d, ConnectivesFilled j := by
  intro j sorted
  rw [sort?] at sorted
  split at sorted
  · cases sorted
  · obtain rfl := Option.some.inj sorted
    refine connectivesFilled_document fun e listed => ?_
    obtain ⟨_, _, rfl⟩ := List.mem_map.mp listed
    rfl

theorem connectivesFilled_projection? : ∀ j ∈ projection? d, ConnectivesFilled j := by
  intro j shown
  rw [projection?] at shown
  split at shown
  · cases shown
  · obtain rfl := Option.some.inj shown
    refine connectivesFilled_document fun e listed => ?_
    obtain ⟨column, _, rfl⟩ := List.mem_map.mp listed
    rw [projectionEntry]
    split <;> rfl

theorem connectivesFilled_skip? : ∀ j ∈ skip? d, ConnectivesFilled j := by
  intro j skipped
  obtain ⟨l, _, found⟩ := Option.bind_eq_some_iff.mp skipped
  split at found
  · obtain rfl := Option.some.inj found
    exact connectivesFilled_int _
  · cases found

theorem connectivesFilled_take? : ∀ j ∈ take? d, ConnectivesFilled j := by
  intro j taken
  obtain ⟨l, _, rfl⟩ := Option.map_eq_some_iff.mp taken
  exact connectivesFilled_int _

theorem connectivesFilled_lookups : ∀ s ∈ lookups d, ConnectivesFilled s := by
  intro s listed
  obtain ⟨l, _, rfl⟩ := List.mem_map.mp listed
  rw [connectivesFilled_cons_iff (by decide)]
  refine ⟨connectivesFilled_scalars ?_, connectivesFilled_obj_nil⟩
  simp [Json.isScalar]

/-- The stages behind the filter say nothing of it. -/
theorem connectivesFilled_pipeline_iff (rendered : pipeline d = .ok stages) :
    (∀ s ∈ stages, ConnectivesFilled s) ↔ ∀ p ∈ d.filter, p.JoinsAtLeast 1 := by
  obtain ⟨query, written, rfl⟩ := pipeline_eq_ok rendered
  have final : ∀ s ∈ finalStages d, ConnectivesFilled s := by
    simp only [finalStages, List.forall_mem_append]
    exact ⟨⟨⟨(connectivesFilled_stage_iff rfl).mpr connectivesFilled_sort?,
      (connectivesFilled_stage_iff rfl).mpr connectivesFilled_skip?⟩,
      (connectivesFilled_stage_iff rfl).mpr connectivesFilled_take?⟩,
      (connectivesFilled_stage_iff rfl).mpr connectivesFilled_projection?⟩
  rw [List.forall_mem_append, List.forall_mem_append, connectivesFilled_stage_iff rfl,
    connectivesFilled_filterDocument?_iff written]
  exact and_iff_left ⟨connectivesFilled_lookups, final⟩

/-! ### Commands -/

theorem connectivesFilled_field_iff (apart : connectiveOf? key = none) :
    ConnectivesFilled (.obj (field key o)) ↔ ∀ j ∈ o, ConnectivesFilled j := by
  cases o with
  | none => simp [field, connectivesFilled_obj_nil]
  | some v => simp [field, connectivesFilled_cons_iff apart, connectivesFilled_obj_nil]

theorem connectivesFilled_getD_iff :
    ConnectivesFilled (query.getD (.obj [])) ↔ ∀ q ∈ query, ConnectivesFilled q := by
  cases query <;> simp [connectivesFilled_obj_nil]

theorem connectivesFilled_find_iff :
    ConnectivesFilled (find d query) ↔ ∀ q ∈ query, ConnectivesFilled q := by
  simp (disch := decide) only [find, connectivesFilled_obj_append_iff, connectivesFilled_cons_iff,
    connectivesFilled_field_iff]
  constructor
  · intro h
    exact h.1.1.1.1.2
  · intro h
    exact ⟨⟨⟨⟨⟨⟨connectivesFilled_str _, connectivesFilled_obj_nil⟩, h⟩,
      connectivesFilled_projection?⟩, connectivesFilled_sort?⟩, connectivesFilled_skip?⟩,
      connectivesFilled_take?⟩

theorem connectivesFilled_aggregate_iff {table : String} :
    ConnectivesFilled (aggregate table stages) ↔ ∀ s ∈ stages, ConnectivesFilled s := by
  simp (disch := decide) only [aggregate, connectivesFilled_cons_iff, connectivesFilled_arr_iff,
    connectivesFilled_obj_nil, connectivesFilled_str, true_and, and_true]

theorem connectivesFilled_groupBody (columns : List String) :
    ConnectivesFilled (groupBody columns) := by
  rw [groupBody]
  split
  · exact connectivesFilled_str _
  · refine connectivesFilled_document fun e listed => ?_
    obtain ⟨column, _, rfl⟩ := List.mem_map.mp listed
    rfl

theorem connectivesFilled_distinctStages_iff :
    (∀ s ∈ distinctStages d query, ConnectivesFilled s) ↔ ∀ q ∈ query, ConnectivesFilled q := by
  have others : ∀ s ∈ [Json.obj [("$group", .obj [("_id", groupBody d.included)])],
      .obj [("$replaceRoot", .obj [("newRoot", .str "$_id")])]], ConnectivesFilled s := by
    simp (disch := decide) [connectivesFilled_cons_iff, connectivesFilled_obj_nil,
      connectivesFilled_groupBody, connectivesFilled_str]
  simp (disch := decide) only [distinctStages, List.forall_mem_append, connectivesFilled_stage_iff]
  constructor
  · intro h
    exact h.1.1.1.1
  · intro h
    exact ⟨⟨⟨⟨h, others⟩, connectivesFilled_sort?⟩, connectivesFilled_skip?⟩,
      connectivesFilled_take?⟩

theorem connectivesFilled_distinct_iff :
    ConnectivesFilled (distinct d query) ↔ ∀ q ∈ query, ConnectivesFilled q := by
  by_cases single : ∃ key, d.included = [key]
  · obtain ⟨key, single⟩ := single
    simp (disch := decide) only [distinct_single single, connectivesFilled_cons_iff,
      connectivesFilled_getD_iff, connectivesFilled_obj_nil, connectivesFilled_str, true_and,
      and_true]
  · rw [distinct_several fun key same => single ⟨key, same⟩, connectivesFilled_aggregate_iff,
      connectivesFilled_distinctStages_iff]

theorem connectivesFilled_fieldDocument (written : fieldDocument d = .ok j) :
    ConnectivesFilled j := by
  obtain ⟨entries, each, rfl⟩ := Sql.exists_of_map_eq_ok written
  have scalars : ∀ e ∈ entries, e.2.isScalar = true := by
    have related := Sql.forall₂_of_mapM each
    clear each written
    generalize d.fields.entries = es at related
    induction related with
    | nil => simp
    | cons known _ ih =>
      obtain ⟨k, given, rfl⟩ := Sql.exists_of_map_eq_ok known
      exact List.forall_mem_cons.mpr ⟨isScalar_of_value given, ih⟩
  exact connectivesFilled_document scalars

/-- The command of a descriptor that says its filter has no connective over an empty list exactly if
each group of the filter joins something. -/
theorem connectivesFilled_command_iff (filters : d.kind ≠ .insert ∧ d.kind ≠ .procedure)
    (rendered : command d = .ok c) :
    ConnectivesFilled c ↔ ∀ p ∈ d.filter, p.JoinsAtLeast 1 := by
  rw [command] at rendered
  obtain ⟨query, written, rendered⟩ := Sql.exists_of_bind_eq_ok rendered
  rw [← connectivesFilled_filterDocument?_iff written]
  cases kind : d.kind with
  | select =>
    rw [kind] at rendered
    by_cases joined : d.joins.isEmpty = true
    · obtain rfl := Except.ok.inj ((if_pos joined).symm.trans rendered)
      exact connectivesFilled_find_iff
    · obtain ⟨stages, known, same⟩ :=
        Sql.exists_of_bind_eq_ok ((if_neg joined).symm.trans rendered)
      obtain rfl := Except.ok.inj same
      rw [connectivesFilled_aggregate_iff, connectivesFilled_pipeline_iff known,
        connectivesFilled_filterDocument?_iff written]
  | command =>
    rw [kind] at rendered
    obtain rfl := Except.ok.inj rendered
    exact connectivesFilled_distinct_iff
  | update =>
    rw [kind] at rendered
    obtain ⟨fields, assigned, same⟩ := Sql.exists_of_bind_eq_ok rendered
    obtain rfl := Except.ok.inj same
    have set := connectivesFilled_fieldDocument assigned
    simp (disch := decide) only [connectivesFilled_cons_iff, connectivesFilled_arr_iff,
      connectivesFilled_getD_iff, connectivesFilled_obj_nil, connectivesFilled_str,
      connectivesFilled_bool, set, List.forall_mem_singleton, true_and, and_true]
  | delete =>
    rw [kind] at rendered
    obtain rfl := Except.ok.inj rendered
    simp (disch := decide) only [connectivesFilled_cons_iff, connectivesFilled_arr_iff,
      connectivesFilled_getD_iff, connectivesFilled_obj_nil, connectivesFilled_str,
      connectivesFilled_int, List.forall_mem_singleton, true_and, and_true]
  | insert => exact absurd kind filters.1
  | procedure => exact absurd kind filters.2

end Document

end SqlBridge
