import SqlBridge.Proofs.Statement.Projection
import SqlBridge.Proofs.Statement.Spot

/-!
# The names of a statement

In a statement that compiles, what is taken for a name gives one, and these are all the names that
the descriptor has. A bare reserved word is never among them, unless it is the field of a condition.
-/

namespace SqlBridge

open Spot (Walk)

variable {ctx : Context} {p : List Token} {d : Descriptor}

/-! ### The names of a role -/

def Role.listed (r : Role) (ns : List (Role × String)) : List String :=
  (ns.filter fun n => n.1 = r).map Prod.snd

namespace Role

variable {r r' : Role} {name : String} {ns ms : List (Role × String)}

@[simp] theorem listed_nil : r.listed [] = [] := rfl

@[simp] theorem listed_cons :
    r.listed ((r', name) :: ns) = (if r' = r then [name] else []) ++ r.listed ns := by
  rw [listed, List.filter_cons]
  by_cases same : r' = r <;> simp [same, listed]

@[simp] theorem listed_append : r.listed (ns ++ ms) = r.listed ns ++ r.listed ms := by
  rw [listed, List.filter_append, List.map_append, listed, listed]

@[simp] theorem listed_map (names : List String) :
    r.listed (names.map (Prod.mk r')) = if r' = r then names else [] := by
  induction names with
  | nil => rw [List.map_nil, listed_nil, ite_self]
  | cons name names ih =>
    rw [List.map_cons, listed_cons, ih]
    by_cases same : r' = r <;> simp [same]

theorem listed_flatMap {α : Type} (as : List α) (f : α → List (Role × String)) :
    r.listed (as.flatMap f) = as.flatMap fun a => r.listed (f a) := by
  induction as with
  | nil => rfl
  | cons a as ih => rw [List.flatMap_cons, listed_append, ih, List.flatMap_cons]

end Role

/-! ### Joins and select lists -/

namespace Join

variable {outer : TableRef} {clauses : List Clause} {stages : List Lookup}

theorem fromTable_of_lookup {joined : TableRef} {left right : String} {stage : Lookup}
    (h : lookup outer joined left right = .ok stage) : stage.fromTable = joined.name := by
  rw [lookup] at h
  split at h
  · cases h; rfl
  · cases h; rfl
  · cases h

@[simp] theorem listed_table_clauses (clauses : List Clause) :
    Role.table.listed (clauses.flatMap Clause.takenNames) = clauses.map fun c => c.table.name := by
  rw [List.map_eq_flatMap, Role.listed_flatMap]
  simp [Clause.takenNames, TableRef.takenNames]

@[simp] theorem listed_tableAlias_clauses (clauses : List Clause) :
    Role.tableAlias.listed (clauses.flatMap Clause.takenNames) =
      clauses.flatMap fun c => c.table.otherName.toList := by
  simp [Role.listed_flatMap, Clause.takenNames, TableRef.takenNames]

@[simp] theorem listed_operand_clauses (clauses : List Clause) :
    Role.operand.listed (clauses.flatMap Clause.takenNames) =
      clauses.flatMap fun c => [c.left, c.right] := by
  simp [Role.listed_flatMap, Clause.takenNames, TableRef.takenNames]

/-- Nothing else is named in a join. -/
theorem listed_clauses_of_ne {r : Role} (table : r ≠ .table) (renamed : r ≠ .tableAlias)
    (operand : r ≠ .operand) : r.listed (clauses.flatMap Clause.takenNames) = [] := by
  have each : ∀ c ∈ clauses, r.listed c.takenNames = [] := by
    intro c _
    simp [Clause.takenNames, TableRef.takenNames, table.symm, renamed.symm, operand.symm]
  rw [Role.listed_flatMap, List.flatMap_eq_nil_iff]
  exact each

theorem LooksUp.fromTable_eq (h : LooksUp outer clauses stages) :
    stages.map Lookup.fromTable = clauses.map fun c => c.table.name := by
  induction h with
  | nil => rfl
  | cons found _ ih => rw [List.map_cons, List.map_cons, fromTable_of_lookup found, ih]

end Join

namespace Select

@[simp] theorem listed_column_named (items : List (String × Option String)) :
    Role.column.listed ((named items).flatMap Column.takenNames) = items.map Prod.fst := by
  rw [List.map_eq_flatMap, Role.listed_flatMap, named, List.flatMap_map]
  simp [Column.takenNames]

@[simp] theorem listed_columnAlias_named (items : List (String × Option String)) :
    Role.columnAlias.listed ((named items).flatMap Column.takenNames) =
      items.flatMap fun i => i.2.toList := by
  simp [named, List.flatMap_map, Column.takenNames, Role.listed_flatMap]

/-- Nothing else is named in a select list. -/
theorem listed_columns_of_ne {r : Role} {columns : List Column} (named : r ≠ .column)
    (renamed : r ≠ .columnAlias) : r.listed (columns.flatMap Column.takenNames) = [] := by
  have each : ∀ c ∈ columns, r.listed c.takenNames = [] := by
    intro c _
    cases c <;> simp [Column.takenNames, named.symm, renamed.symm]
  rw [Role.listed_flatMap, List.flatMap_eq_nil_iff]
  exact each

variable {primaryKey name : String} {columns : List Column} {shown : Projection}

theorem mem_listed_column_iff (shows : projection primaryKey columns = .ok shown) :
    name ∈ Role.column.listed (columns.flatMap Column.takenNames) ↔
      name ∈ (shown.included.entries.filter Prod.snd).map Prod.fst := by
  rcases projection_eq_ok_iff.mp shows with ⟨rfl, rfl⟩ | ⟨items, rfl, rfl⟩
  · simp [Column.takenNames]
  · have hidden : (if primaryKey ∈ items.map Prod.fst then []
        else [(primaryKey, false)]).filter Prod.snd = [] := by
      split <;> rfl
    rw [listed_column_named, ← contains_shownColumns, OrderedMap.contains_eq_true_iff,
      entries_included, List.filter_append, hidden, List.append_nil]
    simp [List.filter_map, OrderedMap.keys]

theorem mem_listed_columnAlias_iff (shows : projection primaryKey columns = .ok shown) :
    name ∈ Role.columnAlias.listed (columns.flatMap Column.takenNames) ↔
      name ∈ shown.aliases.keys := by
  rcases projection_eq_ok_iff.mp shows with ⟨rfl, rfl⟩ | ⟨items, rfl, rfl⟩
  · simp [Column.takenNames]
  · have key : name ∈ (shownAliases items).keys ↔
        name ∈ (items.filterMap fun i => i.2.map fun a => (a, i.1)).map Prod.fst := by
      rw [← OrderedMap.contains_ofList, OrderedMap.contains_eq_true_iff]
      rfl
    rw [listed_columnAlias_named]
    refine Iff.trans ?_ key.symm
    simp

end Select

/-! ### The names of a descriptor -/

/-- The names of the descriptor are these, each in its role and in the order of the statement.
Columns and aliases that repeat count once. -/
structure Descriptor.NamedBy (d : Descriptor) (ns : List (Role × String)) : Prop where
  procedure : Role.procedure.listed ns = d.procedureName.toList
  table : Role.table.listed ns =
    if d.kind = .procedure then [] else d.table :: d.joins.map Lookup.fromTable
  column : ∀ name, name ∈ Role.column.listed ns ↔ name ∈ d.included
  columnAlias : ∀ name, name ∈ Role.columnAlias.listed ns ↔ name ∈ d.aliases.keys
  field : Role.field.listed ns =
    (d.filter.elim [] Predicate.leaves).filterMap Predicate.field?
  target : Role.target.listed ns = if d.kind = .procedure then [] else d.fields.keys
  ordered : Role.ordered.listed ns = d.orderBy.map OrderElement.field
  joins : ∃ otherName clauses, Join.LooksUp ⟨d.table, otherName⟩ clauses d.joins ∧
    Role.tableAlias.listed ns =
      otherName.toList ++ clauses.flatMap (fun c => c.table.otherName.toList) ∧
    Role.operand.listed ns = clauses.flatMap fun c => [c.left, c.right]

/-! ### Statements -/

/-- The names of a statement that changes a table without joining another one to it. -/
theorem Descriptor.namedBy_of_plain {kind : StatementKind} {table : String}
    {fields : OrderedMap Value} {filter : Option Predicate} {ignoreOnConflict : Bool}
    (apart : kind ≠ .procedure) :
    NamedBy { kind, table, fields, filter, ignoreOnConflict }
      ((.table, table) :: (fields.keys.map (Prod.mk .target) ++
        Predicate.fieldNames (filter.elim [] Predicate.leaves))) where
  procedure := by simp [Predicate.fieldNames]
  table := by simp [Predicate.fieldNames, apart]
  column := by simp [Predicate.fieldNames, Descriptor.included]
  columnAlias := by simp [Predicate.fieldNames]
  field := by simp [Predicate.fieldNames]
  target := by simp [Predicate.fieldNames, apart]
  ordered := by simp [Predicate.fieldNames]
  joins := ⟨none, [], .nil, by simp [Predicate.fieldNames], by simp [Predicate.fieldNames]⟩

theorem Delete.StatementOf.names (h : StatementOf ctx p d) :
    ∃ ns s, Walk .opening p ns s ∧ d.NamedBy ns := by
  cases h with
  | @delete k j t _ table filter delete from_ named filtered =>
    have first := Spot.opening_next (o := .delete) (by decide) delete
    obtain ⟨s, clause, _⟩ := filtered.names (s := .behind .table) (by simp [Spot.StartsClause])
    have tabled : Walk .clauses (j :: t :: _) _ s :=
      .inner from_ rfl (.named (by decide) rfl named rfl clause)
    exact ⟨_, s, .pass rfl first tabled, Descriptor.namedBy_of_plain (by decide)⟩

namespace Update

theorem AssignmentOf.names {e : String × Value} (h : AssignmentOf ctx.params p e) :
    Walk (.name .target) p [(.target, e.1)] (.behind .target) := by
  cases h with
  | assignment named => exact .named (by decide) rfl named rfl (.pass rfl rfl (.pass rfl rfl .nil))

theorem StatementOf.names (h : StatementOf ctx p d) :
    ∃ ns s, Walk .opening p ns s ∧ d.NamedBy ns := by
  cases h with
  | @update k t j p q table fields filter update named set assigned filtered =>
    have first := Spot.opening_next (o := .update) (by decide) update
    have targets : Walk (.name .target) p _ (.behind .target) :=
      assigned.names ⟨rfl, rfl⟩ AssignmentOf.names
    rw [← List.map_eq_flatMap] at targets
    obtain ⟨s, clause, _⟩ := filtered.names (s := .behind .target) (by simp [Spot.StartsClause])
    have changed : Walk (.behind .table) (j :: (p ++ q)) _ s :=
      .keyword (by simp [Spot.StartsClause]) set (by decide) rfl (targets.append clause)
    have tabled : Walk (.name .table) (t :: j :: (p ++ q)) _ s :=
      .named (by decide) rfl named rfl changed
    have same : (fields.entries.map fun e => (Role.target, e.1)) =
        fields.keys.map (Prod.mk .target) := by
      rw [OrderedMap.keys, List.map_map]
      rfl
    rw [same] at tabled
    exact ⟨_, s, .pass rfl first tabled, Descriptor.namedBy_of_plain (by decide)⟩

end Update

namespace Insert

theorem NameAt.names {name : String} (h : NameAt p name) :
    Walk (.name .target) p [(.target, name)] (.behind .target) := by
  obtain ⟨t, rfl, named⟩ := h
  exact .named (by decide) rfl named rfl .nil

theorem StatementOf.names (h : StatementOf ctx p d) :
    ∃ ns s, Walk .opening p ns s ∧ d.NamedBy ns := by
  cases h with
  | @insert k j t v w p q _ table fields insert ignoring into named columns =>
    have first := Spot.opening_next (o := .insert) (by decide) insert
    have targets : Walk (.name .target) p _ (.behind .target) :=
      columns.names ⟨rfl, rfl⟩ NameAt.names
    rw [← List.map_eq_flatMap] at targets
    have listed : ∀ {s : List Token}, Walk (.name .target) (p ++ .rightParen :: s) _ .rest :=
      targets.append (.pass rfl rfl Spot.walk_rest)
    have tabled : ∀ {s : List Token},
        Walk .clauses (j :: t :: .leftParen :: (p ++ .rightParen :: s)) _ .rest :=
      .inner into rfl (.named (by decide) rfl named rfl (.pass rfl rfl listed))
    have ignored : Walk .clauses w [] .clauses := by
      cases ignoring with
      | present ignore => exact .inner ignore rfl .nil
      | absent => exact .nil
    refine ⟨_, .rest, .pass rfl first (ignored.append tabled), ?_⟩
    exact Descriptor.namedBy_of_plain (by decide)

end Insert

theorem Procedure.StatementOf.names (h : StatementOf ctx p d) :
    ∃ ns s, Walk .opening p ns s ∧ d.NamedBy ns := by
  have walk : ∀ {k t : Token} {keyword name : String} {q : List Token},
      keyword ∈ Statement.Opening.procedure.keywords → k.isKeyword keyword = true →
      t.name? = some name → Walk .opening (k :: t :: q) [(.procedure, name)] .rest := by
    intro k t keyword name q listed opens named
    have first := Spot.opening_next listed opens
    exact .pass rfl first (.named (by decide) rfl named rfl Spot.walk_rest)
  have names : ∀ {name : String} {fields : OrderedMap Value},
      Descriptor.NamedBy { kind := .procedure, fields, procedureName := some name }
        [(.procedure, name)] := by
    intro name fields
    constructor
    case joins => exact ⟨none, [], .nil, by simp, by simp⟩
    all_goals simp [Descriptor.included]
  cases h with
  | call called opens named =>
    have listed := Procedure.mem_keywords_iff.mpr (.inl called)
    exact ⟨_, _, walk listed opens named, names⟩
  | block opens named =>
    have listed := Procedure.mem_keywords_iff.mpr (.inr rfl)
    exact ⟨_, _, walk listed opens named, names⟩

namespace Select

/-- The names of a selection, clause by clause. -/
theorem namedBy {primaryKey : String} {columns : List Column} {shown : Projection}
    {distinct : Bool} {table : TableRef} {clauses : List Join.Clause} {joins : List Lookup}
    {filter : Option Predicate} {orderBy : List OrderElement} {limit : Option Limit}
    (shows : projection primaryKey columns = .ok shown)
    (looked : Join.LooksUp table clauses joins) :
    Descriptor.NamedBy
      { kind := if distinct then .command else .select
        table := table.name
        filter, joins, orderBy, limit
        projection := shown.included
        aliases := shown.aliases
        distinctOn := if distinct then some table.name else none }
      (columns.flatMap Column.takenNames ++ (table.takenNames ++
        (clauses.flatMap Join.Clause.takenNames ++
          (Predicate.fieldNames (filter.elim [] Predicate.leaves) ++
            (orderBy.map OrderElement.field).map (Prod.mk .ordered))))) := by
  have reading : (if distinct = true then StatementKind.command else .select) ≠ .procedure := by
    cases distinct <;> decide
  -- the parts that name nothing in a role drop out, which leaves one part or two for each
  constructor
  case joins =>
    refine ⟨table.otherName, clauses, looked, ?_, ?_⟩
    all_goals simp [-List.map_map, TableRef.takenNames, Predicate.fieldNames, listed_columns_of_ne]
  all_goals simp [-List.map_map, TableRef.takenNames, Predicate.fieldNames, listed_columns_of_ne,
    Join.listed_clauses_of_ne, reading, looked.fromTable_eq, mem_listed_column_iff shows,
    mem_listed_columnAlias_iff shows, Descriptor.included]

theorem StatementOf.names (h : StatementOf ctx p d) :
    ∃ ns s, Walk .opening p ns s ∧ d.NamedBy ns := by
  cases h with
  | @select k f w c q distinct columns table joins filter orderBy limit shown select marked listed
      from_ clauses shows =>
    cases clauses with
    | clauses named joined filtered ordered limited =>
      have first := Spot.opening_next (o := .select) (by decide) select
      have columnar := walk_columns marked listed
      obtain ⟨s₁, tabled, starts₁⟩ := named.names
      obtain ⟨clauses, s₂, joining, starts₂, looked⟩ := joined.names starts₁
      obtain ⟨s₃, filtering, starts₃⟩ := filtered.names starts₂
      obtain ⟨s₄, ordering, starts₄⟩ := ordered.names starts₃
      obtain ⟨s₅, limiting⟩ := limited.names starts₄
      have last := ordering.append limiting
      rw [List.append_nil] at last
      have tables := tabled.append (joining.append (filtering.append last))
      have comma : f ≠ .comma := Token.ne_of_isKeyword from_ rfl
      have apart : ¬ f.isKeyword "AS" = true := fun as =>
        absurd (Token.upper_eq_of_isKeyword from_ as) (by decide)
      have leads : (Spot.behind .column).next f = .name .table := by
        rw [Spot.next, Spot.afterBehind, if_neg comma, if_neg apart]
        exact Spot.introduced_of_isKeyword from_
      have walk := Walk.pass rfl first (columnar.append (.pass rfl leads tables))
      rw [List.append_assoc] at walk
      exact ⟨_, s₅, walk, namedBy shows looked⟩

end Select

/-- The names of a statement are those of its descriptor. -/
theorem Statement.Opening.FormOf.names {o : Opening} (h : o.FormOf ctx p d) :
    ∃ ns s, Walk .opening p ns s ∧ d.NamedBy ns := by
  cases o with
  | select => exact Select.StatementOf.names h
  | insert => exact Insert.StatementOf.names h
  | update => exact Update.StatementOf.names h
  | delete => exact Delete.StatementOf.names h
  | procedure => exact Procedure.StatementOf.names h

theorem Role.Gives.not_reserved {r : Role} {word name : String} (h : r.Gives (.word word) name)
    (apart : r ≠ .field) : Token.isReserved word = false := by
  rw [Role.Gives, if_neg apart, Token.name?] at h
  split at h
  · cases h
  · next plain => exact Bool.eq_false_iff.mpr plain

/-- No bare reserved word is taken for a name. -/
def Statement.ReservedUnnamed (tokens : List Token) : Prop :=
  ∀ word role, (.word word, role) ∈ named tokens → Token.isReserved word = false

/-- The tokens of a statement that compiles which are taken for names give the names of its
descriptor, and no bare reserved word is among them but for fields of conditions. -/
theorem reservedUnnamed_of_compile_iff {settings : Settings} {text : String} {params : Params}
    (h : compile settings text params = .ok d) :
    ∃ tokens names, Token.tokenize (Statement.normalize text) = .ok tokens ∧
      List.Forall₂ (fun x n => x.2 = n.1 ∧ x.2.Gives x.1 n.2) (Statement.named tokens) names ∧
      d.NamedBy names ∧
      (Statement.ReservedUnnamed tokens ↔ ∀ word, (.word word, .field) ∈ Statement.named tokens →
        Token.isReserved word = false) := by
  obtain ⟨tokens, o, tokenized, form⟩ := compile_eq_ok_iff.mp h
  obtain ⟨names, s, walk, named⟩ := form.names
  refine ⟨tokens, names, tokenized, walk.gives, named, fun unnamed word => unnamed word .field, ?_⟩
  intro fields word role among
  by_cases field : role = .field
  · exact fields word (field ▸ among)
  · obtain ⟨name, gives⟩ := walk.gives_of_mem among
    exact gives.not_reserved field

theorem reservedUnnamed_of_compile_iff_joined :
    ∃ d, compile {} "SELECT a AS b FROM t u JOIN v ON u.id = v.id WHERE offset > 1" ∅ = .ok d ∧
      ∃ tokens names, Token.tokenize (Statement.normalize
        "SELECT a AS b FROM t u JOIN v ON u.id = v.id WHERE offset > 1") = .ok tokens ∧
      List.Forall₂ (fun x n => x.2 = n.1 ∧ x.2.Gives x.1 n.2) (Statement.named tokens) names ∧
      d.NamedBy names ∧
      (Statement.ReservedUnnamed tokens ↔ ∀ word, (.word word, .field) ∈ Statement.named tokens →
        Token.isReserved word = false) := by
  have compiled : compile {} "SELECT a AS b FROM t u JOIN v ON u.id = v.id WHERE offset > 1" ∅ =
      .ok { kind := .select
            table := "t"
            filter := some (.comparison "offset" .gt (.int 1))
            projection := .ofList [("a", true), ("_id", false)]
            aliases := .ofList [("b", "a")]
            joins := [⟨"v", "id", "id", "v"⟩] } := by
    decide +kernel
  exact ⟨_, compiled, reservedUnnamed_of_compile_iff compiled⟩

/-- A word that begins a statement is the field of a condition. -/
theorem not_forall_reservedUnnamed :
    ¬ ∀ (settings : Settings) (text : String) (params : Params) (d : Descriptor)
      (tokens : List Token), compile settings text params = .ok d →
        Token.tokenize (Statement.normalize text) = .ok tokens →
          Statement.ReservedUnnamed tokens := by
  intro all
  have compiled : compile {} "SELECT * FROM t WHERE select = 1" ∅ =
      .ok { kind := .select
            table := "t"
            filter := some (.comparison "select" .eq (.int 1)) } := by
    decide +kernel
  have unnamed := all _ _ _ _
    [.word "SELECT", .word "*", .word "FROM", .word "t", .word "WHERE", .word "select",
      .symbol "=", .word "1"] compiled (by decide +kernel)
  exact absurd (unnamed "select" .field (by decide +kernel)) (by decide +kernel)

end SqlBridge
