import SqlBridge.Json.Basic
import SqlBridge.Proofs.Descriptor.Failure
import SqlBridge.Proofs.Document.Pipeline

/-!
# What a filter document says

A filter document can be read back, although operators, connectives and patterns are keys of the
same objects as fields. What decides is where a key stands and what it leads to: only a connective
leads to an array, and a test of a field is an object only if its first key is a pattern or an
operator. So a field may have any name, and each document is the filter of one predicate at most.
-/

namespace SqlBridge.Document

/-! ### Reading filters -/

/-- The value that a scalar in a document stands for. -/
def valueOf? : Json → Option Value
  | .null => some .null
  | .bool b => some (.bool b)
  | .int i => if -2 ^ 63 ≤ i ∧ i < 2 ^ 63 then some (.int (.ofInt i)) else none
  | .float x => if x.isFinite then some (.float x) else none
  | .str s => some (.str s)
  | .arr _ | .obj _ | .unreadable => none

def operatorOf? (key : String) : Option Operator :=
  [.ne, .lt, .lte, .gt, .gte].find? fun o => operatorKey o = key

def connectiveOf? (key : String) : Option Logic :=
  Logic.all.find? fun l => connectiveKey l = key

/-- The comparison or the pattern that a test of a field stands for. -/
def leafOf? (field : String) : Json → Option Predicate
  | .obj [(key, j)] =>
    if key = "$regex" then j.str?.map (.pattern field · false)
    else (operatorOf? key).bind fun o => (valueOf? j).map (.comparison field o)
  | .obj [(key, j), (other, options)] =>
    if key = "$regex" ∧ other = "$options" ∧ options.str? = some "i" then
      j.str?.map (.pattern field · true)
    else none
  | .obj _ => none
  | j => (valueOf? j).map (.comparison field .eq)

mutual

/-- The predicate that a filter document stands for. -/
def predicateOf? : Json → Option Predicate
  | .obj [(key, .arr branches)] =>
    (connectiveOf? key).bind fun l => (predicatesOf? branches).map (.group l)
  | .obj [(field, test)] => leafOf? field test
  | _ => none

def predicatesOf? : List Json → Option (List Predicate)
  | [] => some []
  | j :: rest => (predicateOf? j).bind fun p => (predicatesOf? rest).map (p :: ·)

end

variable {v : Value} {j : Json} {p : Predicate} {field key : String} {operator : Operator}
  {logic : Logic}

/-! ### Keys and values -/

theorem valueOf?_eq_some_iff : valueOf? j = some v ↔ value v = .ok j := by
  constructor
  · intro found
    cases j with
    | int i =>
      rw [valueOf?] at found
      split at found
      · next fits =>
        cases found
        rw [value, Value.toJson?, Int64.toInt_ofInt_of_le fits.1 fits.2]
        intro name same
        cases same
      · cases found
    | float x =>
      rw [valueOf?] at found
      split at found
      · next finite =>
        cases found
        simp [value, Value.toJson?, finite]
      · cases found
    | null | bool | str => cases found; rfl
    | arr | obj | unreadable => cases found
  · intro written
    cases v with
    | placeholder name => cases written
    | int i =>
      cases written
      rw [valueOf?, if_pos ⟨i.le_toInt, i.toInt_lt⟩, Int64.ofInt_toInt]
    | float x =>
      by_cases finite : x.isFinite = true
      · simp only [value, Value.toJson?, finite, if_true, Except.ok.injEq] at written
        rw [← written, valueOf?, if_pos finite]
      · simp [value, Value.toJson?, finite] at written
    | null | bool | str => cases written; rfl

theorem operatorOf?_eq_some_iff :
    operatorOf? key = some operator ↔ operator ≠ .eq ∧ key = operatorKey operator := by
  constructor
  · intro found
    have same : operatorKey operator = key := by simpa using List.find?_some found
    have listed := List.mem_of_find?_eq_some found
    refine ⟨?_, same.symm⟩
    rintro rfl
    simp at listed
  · rintro ⟨spelled, rfl⟩
    cases operator with
    | eq => exact absurd rfl spelled
    | ne | lt | lte | gt | gte => decide

theorem connectiveOf?_eq_some_iff : connectiveOf? key = some logic ↔ key = connectiveKey logic := by
  constructor
  · intro found
    have same : connectiveKey logic = key := by simpa using List.find?_some found
    exact same.symm
  · rintro rfl
    cases logic <;> decide

theorem str?_eq_some_iff {text : String} : j.str? = some text ↔ j = .str text := by
  cases j <;> simp [Json.str?]

theorem operatorKey_ne_regex : operatorKey operator ≠ "$regex" := by
  cases operator <;> decide

/-! ### Tests -/

theorem leafOf?_of_scalar (scalar : ∀ fields, j ≠ .obj fields) :
    leafOf? field j = (valueOf? j).map (.comparison field .eq) := by
  cases j with
  | obj fields => exact absurd rfl (scalar fields)
  | _ => rfl

theorem leafOf?_condition (written : value v = .ok j) :
    leafOf? field (condition operator j) = some (.comparison field operator v) := by
  have found := valueOf?_eq_some_iff.mpr written
  by_cases equal : operator = .eq
  · have scalar : ∀ fields, j ≠ .obj fields := by
      rintro fields rfl
      cases found
    rw [condition, if_pos equal, leafOf?_of_scalar scalar, found, equal]
    rfl
  · have spelled := operatorOf?_eq_some_iff.mpr ⟨equal, rfl⟩
    rw [condition, if_neg equal, leafOf?, if_neg operatorKey_ne_regex, spelled, found]
    rfl

theorem filter_comparison (written : value v = .ok j) :
    filter (.comparison field operator v) = .ok (.obj [(field, condition operator j)]) := by
  rw [filter, written]
  rfl

/-- A test of a field stands for the predicate that it is written for. -/
theorem filter_of_leafOf? {test : Json} (found : leafOf? field test = some p) :
    filter p = .ok (.obj [(field, test)]) := by
  rw [leafOf?.eq_def] at found
  split at found
  · next key k =>
    split at found
    · next pattern =>
      obtain ⟨regex, text, rfl⟩ := Option.map_eq_some_iff.mp found
      rw [filter, pattern, str?_eq_some_iff.mp text]
      rfl
    · obtain ⟨o, spelled, found⟩ := Option.bind_eq_some_iff.mp found
      obtain ⟨v, given, rfl⟩ := Option.map_eq_some_iff.mp found
      obtain ⟨different, rfl⟩ := operatorOf?_eq_some_iff.mp spelled
      rw [filter_comparison (valueOf?_eq_some_iff.mp given), condition, if_neg different]
  · next key k other options =>
    split at found
    · next pattern =>
      obtain ⟨rfl, rfl, insensitive⟩ := pattern
      obtain ⟨regex, text, rfl⟩ := Option.map_eq_some_iff.mp found
      rw [filter, str?_eq_some_iff.mp text, str?_eq_some_iff.mp insensitive]
      rfl
    · cases found
  · cases found
  · obtain ⟨v, given, rfl⟩ := Option.map_eq_some_iff.mp found
    rw [filter_comparison (valueOf?_eq_some_iff.mp given), condition, if_pos rfl]

/-! ### Filters -/

theorem predicateOf?_of_leaf {test : Json} (plain : ∀ branches, test ≠ .arr branches) :
    predicateOf? (.obj [(field, test)]) = leafOf? field test := by
  rw [predicateOf?]
  simpa using plain

mutual

/-- A filter document stands for the predicate it is written for. -/
theorem predicateOf?_of_filter : ∀ {p : Predicate} {j : Json}, filter p = .ok j →
    predicateOf? j = some p
  | .comparison field operator v, j, written => by
    rw [filter] at written
    obtain ⟨k, known, same⟩ := Sql.exists_of_bind_eq_ok written
    obtain rfl := Except.ok.inj same
    rw [predicateOf?_of_leaf (condition_ne_arr (value_ne_arr known)), leafOf?_condition known]
  | .pattern field regex caseInsensitive, j, written => by
    rw [filter] at written
    obtain rfl := Except.ok.inj written
    rw [predicateOf?_of_leaf (by simp)]
    cases caseInsensitive <;> simp [leafOf?, Json.str?]
  | .group logic children, j, written => by
    rw [filter] at written
    obtain ⟨branches, known, same⟩ := Sql.exists_of_bind_eq_ok written
    obtain rfl := Except.ok.inj same
    rw [predicateOf?, connectiveOf?_eq_some_iff.mpr rfl, predicatesOf?_of_filters known]
    rfl

theorem predicatesOf?_of_filters : ∀ {ps : List Predicate} {js : List Json}, filters ps = .ok js →
    predicatesOf? js = some ps
  | [], js, written => by
    rw [filters] at written
    obtain rfl := Except.ok.inj written
    rfl
  | p :: rest, js, written => by
    rw [filters] at written
    obtain ⟨first, here, written⟩ := Sql.exists_of_bind_eq_ok written
    obtain ⟨others, behind, same⟩ := Sql.exists_of_bind_eq_ok written
    obtain rfl := Except.ok.inj same
    rw [predicatesOf?, predicateOf?_of_filter here, predicatesOf?_of_filters behind]
    rfl

end

/-- A filter document has one entry: a connective over branches, or a test of a field. -/
theorem form_of_predicateOf? (found : predicateOf? j = some p) :
    (∃ branches logic children, j = .obj [(connectiveKey logic, .arr branches)] ∧
      predicatesOf? branches = some children ∧ p = .group logic children) ∨
    ∃ field test, j = .obj [(field, test)] ∧ leafOf? field test = some p := by
  rw [predicateOf?.eq_def] at found
  split at found
  · next key branches =>
    obtain ⟨logic, connects, found⟩ := Option.bind_eq_some_iff.mp found
    obtain ⟨children, known, rfl⟩ := Option.map_eq_some_iff.mp found
    obtain rfl := connectiveOf?_eq_some_iff.mp connects
    exact .inl ⟨branches, logic, children, rfl, known, rfl⟩
  · next field test _ => exact .inr ⟨field, test, rfl, found⟩
  · cases found

mutual

/-- A document that stands for a predicate is the filter of it. -/
theorem filter_of_predicateOf? : ∀ {p : Predicate} {j : Json}, predicateOf? j = some p →
    filter p = .ok j
  | .group logic children, j, found => by
    rcases form_of_predicateOf? found with
      ⟨branches, _, _, rfl, known, same⟩ | ⟨field, test, rfl, leaf⟩
    · cases same
      rw [filter, filters_of_predicatesOf? known]
      rfl
    · exact filter_of_leafOf? leaf
  | .comparison field operator v, j, found => by
    obtain ⟨_, _, _, _, _, ⟨⟩⟩ | ⟨_, _, rfl, leaf⟩ := form_of_predicateOf? found
    exact filter_of_leafOf? leaf
  | .pattern field regex caseInsensitive, j, found => by
    obtain ⟨_, _, _, _, _, ⟨⟩⟩ | ⟨_, _, rfl, leaf⟩ := form_of_predicateOf? found
    exact filter_of_leafOf? leaf

theorem filters_of_predicatesOf? : ∀ {ps : List Predicate} {js : List Json},
    predicatesOf? js = some ps → filters ps = .ok js
  | ps, [], found => by
    cases found
    rfl
  | [], j :: rest, found => by
    rw [predicatesOf?] at found
    obtain ⟨_, _, found⟩ := Option.bind_eq_some_iff.mp found
    obtain ⟨_, _, ⟨⟩⟩ := Option.map_eq_some_iff.mp found
  | p :: ps, j :: rest, found => by
    rw [predicatesOf?] at found
    obtain ⟨_, here, found⟩ := Option.bind_eq_some_iff.mp found
    obtain ⟨_, behind, same⟩ := Option.map_eq_some_iff.mp found
    cases same
    rw [filters, filter_of_predicateOf? here, filters_of_predicatesOf? behind]
    rfl

end

/-- The filter of a predicate fails only at a value that has no document. -/
theorem exists_filter_iff : (∃ j, filter p = .ok j) ↔
    ∀ field operator v, .comparison field operator v ∈ p.leaves →
      v.isPlaceholder = false ∧ ∀ x, v = .float x → x.isFinite = true := by
  have fine : (∃ j, filter p = .ok j) ↔ failure? (filter p) = none := by
    cases filter p <;> simp
  have leaf (v : Value) : failure? (value v) = none ↔
      v.isPlaceholder = false ∧ ∀ x, v = .float x → x.isFinite = true := by
    cases v with
    | float x =>
      cases finite : x.isFinite <;> simp [value, Value.toJson?, Value.isPlaceholder, finite]
    | _ => simp [value, Value.toJson?, Value.isPlaceholder]
  rw [fine, failure?_filter, List.findSome?_eq_none_iff]
  constructor
  · intro all field operator v listed
    exact (leaf v).mp (all _ listed)
  · intro all q listed
    cases q with
    | comparison field operator v => exact (leaf v).mpr (all field operator v listed)
    | pattern field regex caseInsensitive => rfl
    | group logic children => rfl

/-- A predicate whose values are bound and finite has a filter document, from which it is read back.
Only the filter document of a predicate stands for it, and no two predicates share one. -/
theorem filter_determines (p : Predicate) :
    ((∃ j, filter p = .ok j ∧ predicateOf? j = some p) ↔
      ∀ field operator v, .comparison field operator v ∈ p.leaves →
        v.isPlaceholder = false ∧ ∀ x, v = .float x → x.isFinite = true) ∧
    (∀ j, predicateOf? j = some p ↔ filter p = .ok j) ∧
    ∀ q j, filter p = .ok j → filter q = .ok j → p = q := by
  refine ⟨?_, fun j => ⟨filter_of_predicateOf?, predicateOf?_of_filter⟩, ?_⟩
  · rw [← exists_filter_iff]
    refine exists_congr fun j => ?_
    exact and_iff_left_of_imp predicateOf?_of_filter
  · intro q j first second
    have same := (predicateOf?_of_filter first).symm.trans (predicateOf?_of_filter second)
    exact Option.some.inj same

/-- Fields that are named like a connective and an operator, and a text that looks like a key. -/
example : (filter (.group .and [.comparison "$and" .eq (.str "$or"),
    .comparison "$ne" .ne (.str "$regex")])).toOption.bind predicateOf? =
      some (.group .and [.comparison "$and" .eq (.str "$or"),
        .comparison "$ne" .ne (.str "$regex")]) := by
  decide +kernel

end SqlBridge.Document
