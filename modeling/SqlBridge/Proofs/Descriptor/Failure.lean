import SqlBridge.Document.Render
import SqlBridge.Proofs.Descriptor.WellFormed
import SqlBridge.Sql.Render

/-!
# When a descriptor cannot be rendered

A renderer fails at the first part it cannot write. For SQL that is a comparison by order with null,
for a document store a number that is not finite. In a compiled descriptor there is nothing else to
fail at: its values are bound, its writes have fields and its calls have a name.
-/

namespace SqlBridge

def failure? {ε α : Type} : Except ε α → Option ε
  | .ok _ => none
  | .error e => some e

section Failure

variable {ε α β γ : Type}

theorem failure?_eq_some_iff {x : Except ε α} {e : ε} : failure? x = some e ↔ x = .error e := by
  cases x <;> simp [failure?]

@[simp] theorem failure?_ok (a : α) : failure? (.ok a : Except ε α) = none := rfl

@[simp] theorem failure?_error (e : ε) : failure? (.error e : Except ε α) = some e := rfl

@[simp] theorem failure?_pure (a : α) : failure? (pure a : Except ε α) = none := rfl

@[simp] theorem failure?_map (f : α → β) (x : Except ε α) : failure? (x.map f) = failure? x := by
  cases x <;> rfl

/-- If the second step fails in the same way whatever the first one yields, the first failure of the
two counts. -/
theorem failure?_bind {x : Except ε α} {f : α → Except ε β} {o : Option ε}
    (h : ∀ a, x = .ok a → failure? (f a) = o) : failure? (x >>= f) = (failure? x).or o := by
  cases x with
  | error e => rfl
  | ok a => exact h a rfl

/-- A list of computations fails as the first of them that fails. -/
theorem failure?_mapM (f : α → Except ε β) (as : List α) :
    failure? (as.mapM f) = as.findSome? fun a => failure? (f a) := by
  induction as with
  | nil => rfl
  | cons a as ih =>
    have tail : ∀ b, failure? (as.mapM f >>= fun bs => pure (b :: bs) : Except ε (List β)) =
        as.findSome? fun a => failure? (f a) := by
      intro b
      rw [failure?_bind (o := none) fun _ _ => rfl, ih, Option.or_none]
    rw [List.mapM_cons, failure?_bind fun b _ => tail b, List.findSome?_cons]
    cases failure? (f a) <;> rfl

end Failure

def Operator.IsOrder (o : Operator) : Prop :=
  o = .lt ∨ o = .lte ∨ o = .gt ∨ o = .gte

def Descriptor.filterLeaves (d : Descriptor) : List Predicate :=
  d.filter.elim [] Predicate.leaves

/-- Whether the value stands in the descriptor: compared with in its filter, or in its fields. -/
def Descriptor.Holds (d : Descriptor) (v : Value) : Prop :=
  (∃ field operator, .comparison field operator v ∈ d.filterLeaves) ∨ v ∈ d.fields.values

/-- In a well-formed descriptor the values that are compared with are bound. -/
theorem Descriptor.WellFormed.leaf_plain {primaryKey : String} {d : Descriptor}
    (h : d.WellFormed primaryKey) {field : String} {operator : Operator} {v : Value}
    (leaf : .comparison field operator v ∈ d.filterLeaves) : v.isPlaceholder = false := by
  rw [filterLeaves] at leaf
  cases filtered : d.filter with
  | none =>
    rw [filtered] at leaf
    exact absurd leaf List.not_mem_nil
  | some p =>
    rw [filtered] at leaf
    exact h.filter_plain p filtered field operator v leaf

/-! ### SQL -/

namespace Sql

def leafFailure? : Predicate → Option Error
  | .comparison field operator v => failure? (comparedWith field operator v)
  | _ => none

mutual

/-- A predicate fails as the first of its conditions that fails. -/
theorem failure?_predicate : ∀ p : Predicate,
    failure? (predicate p) = p.leaves.findSome? leafFailure?
  | .comparison field operator v => by
    rw [predicate, failure?_bind (o := none) fun _ _ => rfl, Option.or_none,
      Predicate.leaves_comparison, List.findSome?_singleton, leafFailure?]
  | .pattern field regex caseInsensitive => by
    rw [predicate, Predicate.leaves_pattern]
    rfl
  | .group logic children => by
    rw [predicate, failure?_bind (o := none) fun _ _ => rfl, Option.or_none, Predicate.leaves,
      failure?_predicates children]

theorem failure?_predicates : ∀ ps : List Predicate,
    failure? (predicates ps) = (Predicate.leavesOf ps).findSome? leafFailure?
  | [] => rfl
  | p :: rest => by
    have tail : ∀ first, failure? (predicates rest >>= fun others => pure (first :: others)
        : Except Error (List (List Part))) = (Predicate.leavesOf rest).findSome? leafFailure? := by
      intro first
      rw [failure?_bind (o := none) fun _ _ => rfl, failure?_predicates rest, Option.or_none]
    rw [predicates, failure?_bind fun first _ => tail first, failure?_predicate p,
      Predicate.leavesOf, List.findSome?_append]

end

theorem failure?_whereClause (d : Descriptor) :
    failure? (whereClause d.filter) = d.filterLeaves.findSome? leafFailure? := by
  rw [Descriptor.filterLeaves]
  cases d.filter with
  | none => rfl
  | some p => rw [whereClause, failure?_map, failure?_predicate, Option.elim_some]

/-- A value that is no placeholder can be written. -/
theorem failure?_value {v : Value} (plain : v.isPlaceholder = false) :
    failure? (value v) = none := by
  cases v with
  | placeholder name => cases plain
  | _ => rfl

/-- Only comparing null by order fails. -/
theorem leafFailure?_eq_some_iff {p : Predicate} {e : Error}
    (plain : ∀ field o v, p = .comparison field o v → v.isPlaceholder = false) :
    leafFailure? p = some e ↔ ∃ field o, p = .comparison field o .null ∧ o.IsOrder ∧
      e = .notSupported (.orderedNull field o) := by
  cases p with
  | comparison field o v =>
    have bound := plain field o v rfl
    by_cases null : v = .null
    · subst null
      cases o <;> simp [leafFailure?, comparedWith, Value.isNull, Operator.IsOrder, eq_comm]
    · have given : v.isNull = false := by cases v <;> first | rfl | exact absurd rfl null
      have fine : leafFailure? (.comparison field o v) = none := by
        simp only [leafFailure?, comparedWith, given, Bool.false_eq_true, if_false, failure?_map,
          failure?_value bound]
      simp [fine, null]
  | pattern field regex caseInsensitive => simp [leafFailure?]
  | group logic children => simp [leafFailure?]

theorem failure?_values {vs : List Value} (plain : ∀ v ∈ vs, v.isPlaceholder = false) :
    failure? (vs.mapM value) = none := by
  rw [failure?_mapM, List.findSome?_eq_none_iff]
  exact fun v listed => failure?_value (plain v listed)

/-- A well-formed descriptor fails to render as SQL as the first of its conditions that fails. -/
theorem failure?_render {primaryKey : String} {d : Descriptor} (h : d.WellFormed primaryKey) :
    failure? (render d) = d.filterLeaves.findSome? leafFailure? := by
  have values := failure?_values h.fields_plain
  have none_of : d.filter = none → d.filterLeaves.findSome? leafFailure? = none := by
    intro absent
    rw [Descriptor.filterLeaves, absent]
    rfl
  rw [render, failure?_map, parts]
  cases kind : d.kind with
  | select | command =>
    simp only
    rw [select, failure?_bind (o := none) fun _ _ => rfl, Option.or_none, failure?_whereClause]
  | insert =>
    have filled : d.fields.isEmpty = false := by
      simpa [OrderedMap.isEmpty] using h.fields_filled (.inl kind)
    simp only
    rw [insert, filled, if_neg Bool.false_ne_true, failure?_bind (o := none) fun _ _ => rfl, values,
      none_of (h.filter_none (.inl kind))]
    rfl
  | update =>
    have filled : d.fields.isEmpty = false := by
      simpa [OrderedMap.isEmpty] using h.fields_filled (.inr kind)
    have assigned : failure? (d.fields.entries.mapM assignment) = none := by
      rw [failure?_mapM, List.findSome?_eq_none_iff]
      intro e listed
      rw [assignment, failure?_map]
      exact failure?_value (h.fields_plain e.2 (List.mem_map_of_mem listed))
    have rest : ∀ assignments, failure? (whereClause d.filter >>= fun filter =>
        pure ([.fixed "UPDATE ", .identifier d.table, .fixed " SET "]
          ++ separatedBy ", " assignments ++ filter) : Except Error (List Part)) =
          d.filterLeaves.findSome? leafFailure? := by
      intro assignments
      rw [failure?_bind (o := none) fun _ _ => rfl, Option.or_none, failure?_whereClause]
    simp only
    rw [update, filled, if_neg Bool.false_ne_true, failure?_bind fun a _ => rest a, assigned,
      Option.none_or]
  | delete =>
    simp only
    rw [delete, failure?_bind (o := none) fun _ _ => rfl, Option.or_none, failure?_whereClause]
  | procedure =>
    obtain ⟨name, named⟩ := Option.isSome_iff_exists.mp (h.procedureName_iff.mpr kind)
    simp only
    rw [procedure, named]
    simp only
    rw [failure?_bind (o := none) fun _ _ => rfl, values, none_of (h.filter_none (.inr kind))]
    rfl

end Sql

/-! ### Documents -/

namespace Document

/-- What is wrong with the value of a single condition. -/
def leafFailure? : Predicate → Option Error
  | .comparison _ _ v => failure? (value v)
  | _ => none

mutual

/-- The document of a predicate fails as the first of its conditions that fails. -/
theorem failure?_filter : ∀ p : Predicate, failure? (filter p) = p.leaves.findSome? leafFailure?
  | .comparison field operator v => by
    rw [filter, failure?_bind (o := none) fun _ _ => rfl, Option.or_none,
      Predicate.leaves_comparison, List.findSome?_singleton, leafFailure?]
  | .pattern field regex caseInsensitive => by
    rw [filter, Predicate.leaves_pattern]
    rfl
  | .group logic children => by
    rw [filter, failure?_bind (o := none) fun _ _ => rfl, Option.or_none, Predicate.leaves,
      failure?_filters children]

theorem failure?_filters : ∀ ps : List Predicate,
    failure? (filters ps) = (Predicate.leavesOf ps).findSome? leafFailure?
  | [] => rfl
  | p :: rest => by
    have tail : ∀ first, failure? (filters rest >>= fun others => pure (first :: others)
        : Except Error (List Json)) = (Predicate.leavesOf rest).findSome? leafFailure? := by
      intro first
      rw [failure?_bind (o := none) fun _ _ => rfl, failure?_filters rest, Option.or_none]
    rw [filters, failure?_bind fun first _ => tail first, failure?_filter p,
      Predicate.leavesOf, List.findSome?_append]

end

theorem failure?_filterDocument? (d : Descriptor) :
    failure? (filterDocument? d) = d.filterLeaves.findSome? leafFailure? := by
  rw [Descriptor.filterLeaves, filterDocument?]
  cases d.filter with
  | none => rfl
  | some p => rw [failure?_map, failure?_filter, Option.elim_some]

theorem failure?_fieldDocument (d : Descriptor) :
    failure? (fieldDocument d) = d.fields.values.findSome? fun v => failure? (value v) := by
  rw [fieldDocument, failure?_map, failure?_mapM, OrderedMap.values, List.findSome?_map]
  simp only [failure?_map, Function.comp_def]

/-- Of the values that are no placeholders, only a number that is not finite has no document. -/
theorem failure?_value_eq_some_iff {v : Value} {e : Error} (plain : v.isPlaceholder = false) :
    failure? (value v) = some e ↔ ∃ x : Binary64, v = .float x ∧ x.isFinite = false ∧
      e = .notSupported (.valueWithoutJson v) := by
  cases v with
  | placeholder name => cases plain
  | float x =>
    by_cases finite : x.isFinite = true
    · simp [value, Value.toJson?, finite]
    · rw [Bool.not_eq_true] at finite
      have refused : value (.float x) = .error (.notSupported (.valueWithoutJson (.float x))) := by
        simp only [value, Value.toJson?, finite, Bool.false_eq_true, if_false]
      rw [refused, failure?_error, Option.some.injEq]
      constructor
      · rintro rfl
        exact ⟨x, rfl, finite, rfl⟩
      · rintro ⟨_, _, _, rfl⟩
        rfl
  | _ => simp [value, Value.toJson?]

/-- A well-formed descriptor has no command because of the first of its conditions, or else of its
fields, whose value has no document. -/
theorem failure?_command {primaryKey : String} {d : Descriptor} (h : d.WellFormed primaryKey) :
    failure? (command d) = (d.filterLeaves.findSome? leafFailure?).or
      (d.fields.values.findSome? fun v => failure? (value v)) := by
  have no_fields : d.kind = .select ∨ d.kind = .command ∨ d.kind = .delete →
      d.fields.values.findSome? (fun v => failure? (value v)) = none := by
    intro kind
    rw [h.fields_empty kind]
    rfl
  have written : ∀ f : Json → Json, failure? (fieldDocument d >>= fun fields => pure (f fields)) =
      d.fields.values.findSome? fun v => failure? (value v) := by
    intro f
    rw [failure?_bind (o := none) fun _ _ => rfl, failure?_fieldDocument, Option.or_none]
  rw [command, ← failure?_filterDocument?]
  refine failure?_bind fun query found => ?_
  cases kind : d.kind with
  | select =>
    rw [no_fields (.inl kind)]
    have staged :
        failure? (pipeline d >>= fun stages => pure (aggregate d.table stages)) = none := by
      rw [pipeline, found]
      rfl
    simp only
    split
    · rfl
    · exact staged
  | command => exact (no_fields (.inr (.inl kind))).symm
  | delete => exact (no_fields (.inr (.inr kind))).symm
  | insert => exact written _
  | update => exact written _
  | procedure =>
    obtain ⟨name, named⟩ := Option.isSome_iff_exists.mp (h.procedureName_iff.mpr kind)
    simp only [named]
    exact written _

end Document

/-! ### Compiled descriptors -/

section Compiled

variable {settings : Settings} {text : String} {params : Params} {primaryKey field : String}
  {operator : Operator} {x : Binary64} {d : Descriptor}

namespace Descriptor.WellFormed

theorem cause_of_render_eq_error (h : d.WellFormed primaryKey) {e : Sql.Error}
    (fails : Sql.render d = .error e) : ∃ field operator,
      .comparison field operator .null ∈ d.filterLeaves ∧ operator.IsOrder ∧
        e = .notSupported (.orderedNull field operator) := by
  rw [← failure?_eq_some_iff, Sql.failure?_render h] at fails
  obtain ⟨p, leaf, wrong⟩ := List.exists_of_findSome?_eq_some fails
  have plain : ∀ field o v, p = .comparison field o v → v.isPlaceholder = false := by
    rintro field o v rfl
    exact h.leaf_plain leaf
  obtain ⟨field, operator, rfl, ordered, rfl⟩ := (Sql.leafFailure?_eq_some_iff plain).mp wrong
  exact ⟨field, operator, leaf, ordered, rfl⟩

theorem render_fails (h : d.WellFormed primaryKey)
    (leaf : .comparison field operator .null ∈ d.filterLeaves) (ordered : operator.IsOrder) :
    ∃ e, Sql.render d = .error e := by
  have plain : ∀ f o v, Predicate.comparison field operator .null = .comparison f o v →
      v.isPlaceholder = false := by
    rintro f o v ⟨⟩
    rfl
  have wrong : Sql.leafFailure? (.comparison field operator .null) =
      some (.notSupported (.orderedNull field operator)) :=
    (Sql.leafFailure?_eq_some_iff plain).mpr ⟨field, operator, rfl, ordered, rfl⟩
  have some : (d.filterLeaves.findSome? Sql.leafFailure?).isSome :=
    List.findSome?_isSome_iff.mpr ⟨_, leaf, by rw [wrong]; rfl⟩
  obtain ⟨e, found⟩ := Option.isSome_iff_exists.mp some
  exact ⟨e, failure?_eq_some_iff.mp ((Sql.failure?_render h).trans found)⟩

theorem cause_of_command_eq_error (h : d.WellFormed primaryKey) {e : Document.Error}
    (fails : Document.command d = .error e) : ∃ x : Binary64, x.isFinite = false ∧
      d.Holds (.float x) ∧ e = .notSupported (.valueWithoutJson (.float x)) := by
  rw [← failure?_eq_some_iff, Document.failure?_command h, Option.or_eq_some_iff] at fails
  rcases fails with fails | ⟨_, fails⟩
  · obtain ⟨p, leaf, wrong⟩ := List.exists_of_findSome?_eq_some fails
    cases p with
    | comparison field operator v =>
      obtain ⟨x, rfl, infinite, rfl⟩ :=
        (Document.failure?_value_eq_some_iff (h.leaf_plain leaf)).mp wrong
      exact ⟨x, infinite, .inl ⟨field, operator, leaf⟩, rfl⟩
    | pattern field regex caseInsensitive => cases wrong
    | group logic children => cases wrong
  · obtain ⟨v, listed, wrong⟩ := List.exists_of_findSome?_eq_some fails
    obtain ⟨x, rfl, infinite, rfl⟩ :=
      (Document.failure?_value_eq_some_iff (h.fields_plain v listed)).mp wrong
    exact ⟨x, infinite, .inr listed, rfl⟩

theorem command_fails (h : d.WellFormed primaryKey) (infinite : x.isFinite = false)
    (held : d.Holds (.float x)) : ∃ e, Document.command d = .error e := by
  have wrong : failure? (Document.value (.float x)) =
      some (.notSupported (.valueWithoutJson (.float x))) :=
    (Document.failure?_value_eq_some_iff rfl).mpr ⟨x, rfl, infinite, rfl⟩
  have some : ((d.filterLeaves.findSome? Document.leafFailure?).or
      (d.fields.values.findSome? fun v => failure? (Document.value v))).isSome := by
    rw [Option.isSome_or, Bool.or_eq_true, List.findSome?_isSome_iff, List.findSome?_isSome_iff]
    rcases held with ⟨field, operator, leaf⟩ | listed
    · exact .inl ⟨_, leaf, by rw [Document.leafFailure?, wrong]; rfl⟩
    · exact .inr ⟨_, listed, by rw [wrong]; rfl⟩
  obtain ⟨e, found⟩ := Option.isSome_iff_exists.mp some
  exact ⟨e, failure?_eq_some_iff.mp ((Document.failure?_command h).trans found)⟩

end Descriptor.WellFormed

/-- A compiled descriptor has no SQL text exactly if it compares by order with null, and no document
command exactly if it holds a number that is not finite. Both are reported as not supported. -/
theorem render_failures_of_compile (h : compile settings text params = .ok d) :
    ((∃ e, Sql.render d = .error e) ↔
      ∃ field operator, .comparison field operator .null ∈ d.filterLeaves ∧ operator.IsOrder) ∧
    (∀ e, Sql.render d = .error e → ∃ what, e = .notSupported what) ∧
    ((∃ e, Document.command d = .error e) ↔
      ∃ x : Binary64, x.isFinite = false ∧ d.Holds (.float x)) ∧
    ∀ e, Document.command d = .error e → ∃ what, e = .notSupported what := by
  obtain ⟨_, _, _, form⟩ := compile_eq_ok_iff.mp h
  have wellFormed := form.wellFormed
  refine ⟨⟨?_, ?_⟩, ?_, ⟨?_, ?_⟩, ?_⟩
  · rintro ⟨e, fails⟩
    obtain ⟨field, operator, leaf, ordered, _⟩ := wellFormed.cause_of_render_eq_error fails
    exact ⟨field, operator, leaf, ordered⟩
  · rintro ⟨field, operator, leaf, ordered⟩
    exact wellFormed.render_fails leaf ordered
  · intro e fails
    obtain ⟨_, _, _, _, cause⟩ := wellFormed.cause_of_render_eq_error fails
    exact ⟨_, cause⟩
  · rintro ⟨e, fails⟩
    obtain ⟨x, infinite, held, _⟩ := wellFormed.cause_of_command_eq_error fails
    exact ⟨x, infinite, held⟩
  · rintro ⟨x, infinite, held⟩
    exact wellFormed.command_fails infinite held
  · intro e fails
    obtain ⟨_, _, _, cause⟩ := wellFormed.cause_of_command_eq_error fails
    exact ⟨_, cause⟩

theorem render_failures_ordered_null_update :
    ∃ d, compile {} "UPDATE t SET a = :p WHERE x = 1 OR b < NULL"
        (.ofList [("p", .float (.infinity false))]) = .ok d ∧
      (∃ e, Sql.render d = .error e) ∧ ∃ e, Document.command d = .error e := by
  have compiles : compile {} "UPDATE t SET a = :p WHERE x = 1 OR b < NULL"
      (.ofList [("p", .float (.infinity false))]) = .ok {
        kind := .update
        table := "t"
        fields := .ofList [("a", .float (.infinity false))]
        filter := some
          (.group .or [.comparison "x" .eq (.int 1), .comparison "b" .lt .null]) } := by
    decide +kernel
  obtain ⟨sql, _, document, _⟩ := render_failures_of_compile compiles
  have leaf : Predicate.comparison "b" .lt .null ∈
      [.comparison "x" .eq (.int 1), .comparison "b" .lt .null] := by
    simp
  exact ⟨_, compiles, sql.mpr ⟨"b", .lt, leaf, .inl rfl⟩,
    document.mpr ⟨.infinity false, rfl, .inr List.mem_cons_self⟩⟩

end Compiled

end SqlBridge
