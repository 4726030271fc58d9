import SqlBridge.Proofs.Sql.Qualifier
import SqlBridge.Proofs.Statement.Grammar
import SqlBridge.Proofs.Statement.Qualifier

/-!
# The scope of compiled selections

A selection may give its table an alias and qualify its columns by it. The text that is rendered for
it has no alias for the table: in the conditions of joins its qualifier is replaced by the name of
the table, and everywhere else it is kept. So the qualifiers in the text are in scope exactly if the
alias is not used elsewhere, unless it names another table of the selection, and none has a point.
-/

namespace SqlBridge

namespace Select

def fromTable : Reader TableRef := do
  Reader.expectKeyword "SELECT"
  let _ ← Reader.eatKeyword "DISTINCT"
  let _ ← columns
  Reader.expectKeyword "FROM"
  TableRef.reader

/-- The table that a text selects from, if it is a selection. -/
def tableOf? (text : String) : Option TableRef :=
  match Token.tokenize (Statement.normalize text) with
  | .ok tokens => (fromTable.run tokens).1.toOption
  | .error _ => none

end Select

namespace Descriptor

/-- Every name with a point is a column of the table, under its exposed name, or of a joined table.
The operands of joins stand in their lookups, without the qualifier of the table. -/
def QualifiedIn (d : Descriptor) (table : TableRef) : Prop :=
  ∀ name ∈ d.allColumnNames, '.' ∈ name.toList → ∃ qualifier column,
    Join.splitQualifier? name = some (qualifier, column) ∧
      (qualifier = table.exposedName ∨ qualifier ∈ d.joins.map Lookup.exposedAs)

/-- One of the names is a column that has the qualifier. -/
def Uses (names : List String) (qualifier : String) : Prop :=
  ∃ name ∈ names, ∃ column, Join.splitQualifier? name = some (qualifier, column)

end Descriptor

variable {settings : Settings} {text : String} {params : Params} {ctx : Context}
  {table : TableRef} {d : Descriptor} {tokens p rest : List Token}

/-! ### The table of a selection -/

theorem Select.StatementOf.exists_table (h : Select.StatementOf ctx tokens d) :
    ∃ table, (Select.fromTable.run tokens).1 = .ok table ∧ d.table = table.name ∧
      ∃ j p, Join.JoinsOf table p j d.joins := by
  cases h with
  | @select k f w c q distinct cs table joins filter elements limit shown select marked listed
      from_ clauses _ =>
    cases clauses with
    | @clauses t j p o l _ _ _ _ _ named joined =>
      have reads : Select.fromTable.Reads (k :: (w ++ (c ++ f :: t))) table
          (j ++ (p ++ (o ++ l))) := by
        refine Reader.reads_expectKeyword_bind.mpr ⟨k, _, rfl, select, ?_⟩
        refine Reader.reads_marked_bind.mpr ⟨w, _, distinct, rfl, by simpa using marked, ?_⟩
        refine Reader.reads_bind.mpr ⟨c, f :: t, cs, rfl, reads_columns.mpr listed, ?_⟩
        refine Reader.reads_expectKeyword_bind.mpr ⟨f, t, rfl, from_, ?_⟩
        exact TableRef.reads_reader.mpr named
      have run := Reader.run_eq_ok_iff.mpr ⟨_, rfl, reads⟩
      refine ⟨table, ?_, rfl, j, _, joined⟩
      simpa using congrArg Prod.fst run

theorem Join.JoinsOf.exists_stage {outer : TableRef} {stages : List Lookup}
    (h : Join.JoinsOf outer rest p stages) :
    ∀ l ∈ stages, ∃ joined left right, Join.StageOf outer joined left right l := by
  induction h with
  | nil => simp
  | cons _ first _ ih =>
    obtain ⟨_, _, _, found⟩ := first
    exact List.forall_mem_cons.mpr ⟨⟨_, _, _, Join.lookup_eq_ok_iff.mp found⟩, ih⟩

/-- A compiled selection from a table has its name, and its joins are those of the table. -/
theorem table_of_compile (compiled : compile settings text params = .ok d)
    (kind : d.kind = .select ∨ d.kind = .command) (from_ : Select.tableOf? text = some table) :
    d.table = table.name ∧
      ∀ l ∈ d.joins, ∃ joined left right, Join.StageOf table joined left right l := by
  obtain ⟨tokens, o, tokenized, form⟩ := compile_eq_ok_iff.mp compiled
  rw [Select.tableOf?, tokenized] at from_
  cases o with
  | select =>
    obtain ⟨other, taken, named, j, p, joined⟩ := Select.StatementOf.exists_table form
    obtain rfl : other = table := by simpa [taken, Except.toOption] using from_
    exact ⟨named, joined.exists_stage⟩
  | insert => cases form; simp at kind
  | update => cases form; simp at kind
  | delete => cases form; simp at kind
  | procedure => cases form <;> simp at kind

/-! ### Qualifiers in scope -/

/-- A name has one qualifier at most. -/
theorem Sql.IsQualifiedBy.unique {name first second : String} (h : Sql.IsQualifiedBy name first)
    (h' : Sql.IsQualifiedBy name second) : first = second := by
  obtain ⟨column, rfl, last⟩ := h
  obtain ⟨other, same, ended⟩ := h'
  have text : first.toList ++ '.' :: column.toList = second.toList ++ '.' :: other.toList := by
    simpa using congrArg String.toList same
  apply String.toList_inj.mp
  rcases List.append_eq_append_iff.mp text with ⟨cs, more, rest⟩ | ⟨cs, more, rest⟩
  · rcases cs with _ | ⟨c, cs⟩
    · simpa using more.symm
    · have inside : '.' ∈ column.toList := by simp [(List.cons.inj rest).2]
      exact absurd inside last
  · rcases cs with _ | ⟨c, cs⟩
    · simpa using more
    · have inside : '.' ∈ other.toList := by simp [(List.cons.inj rest).2]
      exact absurd inside ended

theorem Sql.isQualifiedBy_of_splitQualifier? {name qualifier column : String}
    (split : Join.splitQualifier? name = some (qualifier, column)) :
    Sql.IsQualifiedBy name qualifier := by
  obtain ⟨text, _, _, last⟩ := Join.splitQualifier?_eq_some_iff.mp split
  exact ⟨column, text, last⟩

theorem Sql.IsQualifiedBy.point_mem {name qualifier : String}
    (h : Sql.IsQualifiedBy name qualifier) : '.' ∈ name.toList := by
  obtain ⟨column, rfl, _⟩ := h
  simp

namespace Join

variable {outer joined : TableRef} {left right : String} {l : Lookup}

/-- The field that a join looks up has no point. -/
theorem StageOf.foreign_plain (h : StageOf outer joined left right l) :
    '.' ∉ l.foreignField.toList := by
  cases h with
  | left looked => exact looked.choose_spec.2.2.2.1
  | right _ looked => exact looked.choose_spec.2.2.2.1

/-- No local field of a join is qualified by the alias of the outer table. -/
theorem StageOf.local_ne (h : StageOf outer joined left right l) {other column : String}
    (renamed : outer.otherName = some other) :
    splitQualifier? l.localField ≠ some (other, column) := by
  intro split
  obtain ⟨text, filled, present, last⟩ := splitQualifier?_eq_some_iff.mp split
  have named : outer.isNamed other = true := by
    rw [TableRef.isNamed, renamed]
    simp [Text.sameWord]
  have known : ∃ operand, LocalOf outer operand l.localField := by
    cases h with
    | left _ _ known => exact ⟨_, known⟩
    | right _ _ known => exact ⟨_, known⟩
  obtain ⟨operand, known⟩ := known
  cases known with
  | field own =>
    obtain ⟨_, _, _, _, plain, _⟩ := own
    exact plain (by rw [text]; simp)
  | whole foreign => exact foreign column ⟨other, text, filled, present, last, named⟩

end Join

/-- Where every qualified name of a selection is a column of one of its tables, under its exposed
name, the qualifiers in its text are in scope exactly if none of them has a point and the alias of
its table qualifies no name outside the conditions of joins, or else is the name of a table that the
text introduces. -/
theorem inScope_iff_of_compile (compiled : compile settings text params = .ok d)
    (kind : d.kind = .select ∨ d.kind = .command) (from_ : Select.tableOf? text = some table)
    (qualified : d.QualifiedIn table) {q : Sql.Query} (rendered : Sql.render d = .ok q) :
    ∃ ls, Sql.lexemes? q.text = some ls ∧ (Sql.InScope ls ↔
      (∀ qualifier, Descriptor.Uses d.allColumnNames qualifier → '.' ∉ qualifier.toList) ∧
        ∀ other, table.otherName = some other → Descriptor.Uses d.columnNames other →
          other ∈ d.scope) := by
  obtain ⟨named, stages⟩ := table_of_compile compiled kind from_
  obtain ⟨ps, selected, scanned⟩ := Sql.select_of_render kind rendered
  have plain : ∀ l ∈ d.joins, '.' ∉ l.foreignField.toList := by
    intro l listed
    obtain ⟨_, _, _, stage⟩ := stages l listed
    exact stage.foreign_plain
  refine ⟨_, scanned, (Sql.inScope_select_iff selected plain).trans ⟨fun inside => ⟨?_, ?_⟩, ?_⟩⟩
  · rintro qualifier ⟨name, listed, column, split⟩
    exact (inside name listed qualifier (Sql.isQualifiedBy_of_splitQualifier? split)).1
  · rintro other _ ⟨name, listed, column, split⟩
    exact (inside name (List.mem_append_left _ listed) other
      (Sql.isQualifiedBy_of_splitQualifier? split)).2
  · rintro ⟨points, alias_⟩ name listed qualifier own
    obtain ⟨other, column, split, known⟩ := qualified name listed own.point_mem
    obtain rfl := own.unique (Sql.isQualifiedBy_of_splitQualifier? split)
    refine ⟨points qualifier ⟨name, listed, column, split⟩, ?_⟩
    rcases known with exposed | joined
    · cases renamed : table.otherName with
      | none =>
        rw [exposed, TableRef.exposedName, renamed, Option.getD_none, ← named]
        exact List.mem_cons_self
      | some other =>
        rw [TableRef.exposedName, renamed, Option.getD_some] at exposed
        subst exposed
        rcases List.mem_append.mp listed with outside | inside
        · exact alias_ qualifier renamed ⟨name, outside, column, split⟩
        · -- the qualifier of a local field is not the alias, which is left out
          obtain ⟨l, joined, rfl⟩ := List.mem_map.mp inside
          obtain ⟨_, _, _, stage⟩ := stages l joined
          exact absurd split (stage.local_ne renamed)
    · exact List.mem_cons_of_mem _ joined

theorem inScope_iff_of_compile_alias_in_join :
    ∃ d q ls, compile {} "SELECT o.total FROM users u JOIN orders o ON u.id = o.user" ∅ = .ok d ∧
      Sql.render d = .ok q ∧ Sql.lexemes? q.text = some ls ∧ Sql.InScope ls := by
  let d : Descriptor := {
    kind := .select
    table := "users"
    projection := .ofList [("o.total", true), ("_id", false)]
    joins := [⟨"orders", "id", "user", "o"⟩] }
  have compiled : compile {} "SELECT o.total FROM users u JOIN orders o ON u.id = o.user" ∅ =
      .ok d := by
    decide +kernel
  have from_ : Select.tableOf? "SELECT o.total FROM users u JOIN orders o ON u.id = o.user" =
      some ⟨"users", some "u"⟩ := by
    decide +kernel
  have rendered : Sql.render d = .ok ⟨"SELECT \"o\".\"total\" FROM \"users\" LEFT OUTER JOIN " ++
      "\"orders\" AS \"o\" ON \"users\".\"id\" = \"o\".\"user\"", []⟩ := by
    decide +kernel
  have names : d.columnNames = ["o.total"] ∧ d.allColumnNames = ["o.total", "id"] := by
    decide +kernel
  have split : Join.splitQualifier? "o.total" = some ("o", "total") ∧
      Join.splitQualifier? "id" = none := by
    decide +kernel
  have qualified : d.QualifiedIn ⟨"users", some "u"⟩ := by
    intro name listed point
    rw [names.2] at listed
    rcases List.mem_pair.mp listed with rfl | rfl
    · exact ⟨"o", "total", split.1, .inr List.mem_cons_self⟩
    · exact absurd point (by decide)
  obtain ⟨ls, scanned, scope⟩ :=
    inScope_iff_of_compile compiled (.inl rfl) from_ qualified rendered
  refine ⟨d, _, ls, compiled, rendered, scanned, scope.mpr ⟨?_, ?_⟩⟩
  · rintro qualifier ⟨name, listed, column, own⟩
    rw [names.2] at listed
    rcases List.mem_pair.mp listed with rfl | rfl
    · obtain ⟨rfl, rfl⟩ := Prod.mk.inj (Option.some.inj (split.1.symm.trans own))
      decide
    · exact absurd (split.2.symm.trans own) (by simp)
  · rintro other _ ⟨name, listed, column, own⟩
    rw [names.1] at listed
    obtain rfl := List.mem_singleton.mp listed
    obtain ⟨rfl, rfl⟩ := Prod.mk.inj (Option.some.inj (split.1.symm.trans own))
    decide

/-- A column that is qualified by the alias of the table keeps that qualifier, which the text does
not introduce. -/
theorem not_forall_compile_inScope :
    ¬ ∀ (settings : Settings) (text : String) (params : Params) (d : Descriptor) (table : TableRef)
      (q : Sql.Query) (ls : List Sql.Lexeme), compile settings text params = .ok d →
      (d.kind = .select ∨ d.kind = .command) → Select.tableOf? text = some table →
      d.QualifiedIn table → Sql.render d = .ok q → Sql.lexemes? q.text = some ls →
      Sql.InScope ls := by
  intro all
  let d : Descriptor := {
    kind := .select
    table := "users"
    projection := .ofList [("u.name", true), ("_id", false)] }
  have compiled : compile {} "SELECT u.name FROM users u" ∅ = .ok d := by decide +kernel
  have from_ : Select.tableOf? "SELECT u.name FROM users u" = some ⟨"users", some "u"⟩ := by
    decide +kernel
  have rendered : Sql.render d = .ok ⟨"SELECT \"u\".\"name\" FROM \"users\"", []⟩ := by
    decide +kernel
  have qualified : d.QualifiedIn ⟨"users", some "u"⟩ := by
    have names : d.allColumnNames = ["u.name"] := by decide +kernel
    have split : Join.splitQualifier? "u.name" = some ("u", "name") := by decide +kernel
    intro name listed point
    rw [names] at listed
    obtain rfl := List.mem_singleton.mp listed
    exact ⟨"u", "name", split, .inl rfl⟩
  have scanned : Sql.lexemes? "SELECT \"u\".\"name\" FROM \"users\"" =
      some [.run .word "SELECT", .identifier "u", .mark '.', .identifier "name", .run .word "FROM",
        .identifier "users"] := by
    decide
  have inside := all {} _ ∅ d _ _ _ compiled (.inl rfl) from_ qualified rendered scanned
  revert inside
  decide

end SqlBridge
