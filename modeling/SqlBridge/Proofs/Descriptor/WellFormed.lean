import SqlBridge.Proofs.Statement.Grammar
import SqlBridge.Proofs.Statement.Projection

/-!
# Well-formed descriptors

Which parts of a descriptor have a meaning depends on its kind. In a well-formed descriptor the
other parts are empty, the parts that the kind calls for are there, and no value is a placeholder.
Every descriptor that is compiled is well formed.
-/

namespace SqlBridge

/-- A projection is empty, or it shows columns and may hide the primary key after them. -/
inductive Descriptor.Projects (primaryKey : String) : List (String × Bool) → Prop where
  | everything : Projects primaryKey []
  | shown {names : List String} (some : names ≠ []) : Projects primaryKey (names.map (·, true))
  | withoutKey {names : List String} (some : names ≠ []) :
      Projects primaryKey (names.map (·, true) ++ [(primaryKey, false)])

/-- What holds of a descriptor that is compiled with a primary key. -/
structure Descriptor.WellFormed (primaryKey : String) (d : Descriptor) : Prop where
  fields_plain : ∀ v ∈ d.fields.values, v.isPlaceholder = false
  filter_plain : ∀ x ∈ d.filter, ∀ field operator v,
    .comparison field operator v ∈ x.leaves → v.isPlaceholder = false
  filter_grouped : ∀ x ∈ d.filter, x.Grouped
  projects : Projects primaryKey d.projection.entries
  aliases_shown : ∀ e ∈ d.aliases.entries, d.projection.get? e.2 = some true
  distinctOn_eq : d.distinctOn = if d.kind = .command then some d.table else none
  fields_filled : d.kind = .insert ∨ d.kind = .update → d.fields.entries ≠ []
  fields_empty : d.kind = .select ∨ d.kind = .command ∨ d.kind = .delete → d.fields = ∅
  filter_none : d.kind = .insert ∨ d.kind = .procedure → d.filter = none
  clauses_empty : d.kind ≠ .select → d.kind ≠ .command →
    d.joins = [] ∧ d.projection = ∅ ∧ d.aliases = ∅ ∧ d.orderBy = [] ∧ d.limit = none
  ignore_insert : d.ignoreOnConflict = true → d.kind = .insert
  procedureName_iff : d.procedureName.isSome = true ↔ d.kind = .procedure

variable {ctx : Context} {p rest : List Token} {d : Descriptor}

/-! ### Filters and fields -/

namespace Condition

theorem ConditionOf.plain {x : Predicate} (h : ConditionOf ctx p x) {field : String}
    {operator : Operator} {v : Value} (comparison : x = .comparison field operator v) :
    v.isPlaceholder = false := by
  cases h with
  | comparison _ _ given =>
    cases comparison
    exact given.plain
  | pattern => cases comparison

theorem WhereOf.plain {filter : Option Predicate} (h : WhereOf ctx rest p filter) :
    ∀ x ∈ filter, ∀ field operator v, .comparison field operator v ∈ x.leaves →
      v.isPlaceholder = false := by
  intro x hx field operator v leaf
  cases h with
  | clause _ chain =>
    cases hx
    rw [chain.leaves_eq] at leaf
    obtain ⟨q, single⟩ := chain.conditions _ leaf
    exact single.plain rfl
  | absent => cases hx

theorem WhereOf.grouped {filter : Option Predicate} (h : WhereOf ctx rest p filter) :
    ∀ x ∈ filter, x.Grouped := by
  intro x hx
  cases h with
  | clause _ chain =>
    cases hx
    exact chain.grouped
  | absent => cases hx

end Condition

/-! ### Each kind -/

namespace Delete

theorem StatementOf.wellFormed (h : StatementOf ctx p d) (primaryKey : String) :
    d.WellFormed primaryKey := by
  cases h with
  | delete _ _ _ filtered =>
    constructor
    case filter_plain => exact filtered.plain
    case filter_grouped => exact filtered.grouped
    case projects => exact .everything
    all_goals simp

end Delete

namespace Update

theorem StatementOf.wellFormed (h : StatementOf ctx p d) (primaryKey : String) :
    d.WellFormed primaryKey := by
  cases h with
  | @update _ _ _ _ _ _ fields _ _ _ _ assigned filtered =>
    have plain : ∀ e ∈ fields.entries, e.2.isPlaceholder = false := by
      refine assigned.all ?_
      rintro _ _ _ ⟨_, given⟩
      exact given.plain
    constructor
    case fields_plain =>
      intro v hv
      obtain ⟨e, listed, rfl⟩ := List.mem_map.mp hv
      exact plain e listed
    case filter_plain => exact filtered.plain
    case filter_grouped => exact filtered.grouped
    case projects => exact .everything
    case fields_filled => exact fun _ => assigned.ne_nil
    all_goals simp

end Update

namespace Insert

theorem StatementOf.wellFormed (h : StatementOf ctx p d) (primaryKey : String) :
    d.WellFormed primaryKey := by
  cases h with
  | @insert _ _ _ _ _ _ _ ignoring _ fields _ _ _ _ columns _ row =>
    have plain : ∀ v ∈ fields.values, v.isPlaceholder = false := by
      refine row.all ?_
      rintro _ _ _ ⟨_, _, given⟩
      exact given.plain
    have filled : fields.entries ≠ [] := by
      intro none
      exact columns.ne_nil (by rw [OrderedMap.keys, none, List.map_nil])
    constructor
    case fields_plain => exact plain
    case projects => exact .everything
    case fields_filled => exact fun _ => filled
    all_goals simp

end Insert

namespace Procedure

theorem ArgumentOf.plain {params : Params} {position : Nat} {e : String × Value}
    (h : ArgumentOf params position p e) : e.2.isPlaceholder = false := by
  cases h <;> assumption

theorem ArgumentsOf.plain {fields : OrderedMap Value} (h : ArgumentsOf ctx rest p fields) :
    ∀ v ∈ fields.values, v.isPlaceholder = false := by
  cases h with
  | nothing => simp
  | empty => simp
  | listed items =>
    intro v hv
    obtain ⟨e, listed, rfl⟩ := List.mem_map.mp hv
    generalize fields.entries = es at items listed
    generalize 0 = n at items
    induction items with
    | last only =>
      obtain rfl := List.mem_singleton.mp listed
      exact only.plain
    | more first _ ih =>
      rcases List.mem_cons.mp listed with rfl | listed
      · exact first.plain
      · exact ih listed

theorem StatementOf.wellFormed (h : StatementOf ctx p d) (primaryKey : String) :
    d.WellFormed primaryKey := by
  have plain : ∀ v ∈ d.fields.values, v.isPlaceholder = false := by
    cases h with
    | call _ _ _ passed => exact passed.plain
    | block _ _ passed => exact passed.plain
  cases h <;> constructor
  case call.fields_plain => exact plain
  case block.fields_plain => exact plain
  case call.projects => exact .everything
  case block.projects => exact .everything
  all_goals simp

end Procedure

namespace Select

theorem projects_of_projection {primaryKey : String} {columns : List Column} {shown : Projection}
    (listed : columns ≠ []) (h : projection primaryKey columns = .ok shown) :
    Descriptor.Projects primaryKey shown.included.entries := by
  obtain ⟨_, rfl⟩ | ⟨items, rfl, rfl⟩ := projection_eq_ok_iff.mp h
  · exact .everything
  · obtain ⟨names, all, entries⟩ := entries_shown primaryKey items
    have some : names ≠ [] := by
      rintro rfl
      rcases items with _ | ⟨i, items⟩
      · exact listed rfl
      · exact List.not_mem_nil (all i.1 (by simp))
    rcases entries with entries | entries
    · rw [entries]
      exact .shown some
    · rw [entries]
      exact .withoutKey some

theorem aliases_of_projection {primaryKey : String} {columns : List Column} {shown : Projection}
    (h : projection primaryKey columns = .ok shown) :
    ∀ e ∈ shown.aliases.entries, shown.included.get? e.2 = some true := by
  obtain ⟨_, rfl⟩ | ⟨items, rfl, rfl⟩ := projection_eq_ok_iff.mp h
  · simp
  · exact fun e => get?_of_mem_aliases

theorem StatementOf.wellFormed (h : StatementOf ctx p d) :
    d.WellFormed ctx.settings.primaryKey := by
  cases h with
  | @select _ _ _ _ _ distinct _ _ _ _ _ _ _ _ _ listed _ clauses shows =>
    cases clauses with
    | clauses _ _ filtered =>
      constructor
      case filter_plain => exact filtered.plain
      case filter_grouped => exact filtered.grouped
      case projects => exact projects_of_projection listed.ne_nil shows
      case aliases_shown => exact aliases_of_projection shows
      all_goals cases distinct <;> simp

end Select

/-! ### Every statement -/

theorem Statement.Opening.FormOf.wellFormed {o : Statement.Opening} (h : o.FormOf ctx p d) :
    d.WellFormed ctx.settings.primaryKey := by
  cases o with
  | select => exact Select.StatementOf.wellFormed h
  | insert => exact Insert.StatementOf.wellFormed h _
  | update => exact Update.StatementOf.wellFormed h _
  | delete => exact Delete.StatementOf.wellFormed h _
  | procedure => exact Procedure.StatementOf.wellFormed h _

/-- Every descriptor that is compiled is well formed. -/
theorem wellFormed_of_compile {settings : Settings} {text : String} {params : Params}
    (h : compile settings text params = .ok d) : d.WellFormed settings.primaryKey := by
  obtain ⟨tokens, o, _, form⟩ := compile_eq_ok_iff.mp h
  exact form.wellFormed

theorem wellFormed_distinct_selection :
    ∃ d, compile {} "SELECT DISTINCT a AS b FROM t WHERE x = :p OR y = 2"
        (.ofList [("p", .int 1), ("q", .placeholder "p")]) = .ok d ∧ d.WellFormed "_id" := by
  have compiles : compile {} "SELECT DISTINCT a AS b FROM t WHERE x = :p OR y = 2"
      (.ofList [("p", .int 1), ("q", .placeholder "p")]) = .ok {
        kind := .command
        table := "t"
        filter := some (.group .or [.comparison "x" .eq (.int 1), .comparison "y" .eq (.int 2)])
        projection := .ofList [("a", true), ("_id", false)]
        aliases := .ofList [("b", "a")]
        distinctOn := some "t" } := by
    decide +kernel
  exact ⟨_, compiles, wellFormed_of_compile compiles⟩

end SqlBridge
