import SqlBridge.Proofs.Literal
import SqlBridge.Proofs.Raising
import SqlBridge.Proofs.Statement.Grammar

/-!
# What the errors of compiling mean

Every clause can be wrong in its syntax, and where it takes a value a placeholder may not be bound.
The other errors have one place each: the opening of a statement, the joins of a selection, and the
lists of an insertion.
-/

namespace SqlBridge

open Reader

/-- What can be wrong in a clause: its syntax, or that a placeholder in it has no parameter that is
a value. -/
inductive ClauseError (params : Params) (ts : List Token) : CompileError → Prop where
  | syntactic {e : CompileError} (h : e.OfSyntax) : ClauseError params ts e
  | unbound {word name : String} (stands : .word word ∈ ts)
      (placeholder : Literal.placeholder? word = some name)
      (missing : params.get? name = none ∨ ∃ other, params.get? name = some (.placeholder other)) :
      ClauseError params ts (.missingBinding name)

/-- What can be wrong in a join apart from its syntax. -/
inductive JoinError : CompileError → Prop where
  | unsupported (kind : String) : JoinError (.unsupportedJoin kind)
  | ambiguous (left right : String) : JoinError (.ambiguousJoinField left right)

variable {ctx : Context} {params : Params} {ts p rest : List Token} {t : Token}
  {e : CompileError} {E : CompileError → Prop}

theorem ClauseError.of_syntax (e : CompileError) (h : e.OfSyntax) : ClauseError params ts e :=
  .syntactic h

/-! ### Values -/

/-- A value fails by a placeholder that is not bound. -/
theorem Params.clauseError_of_valueOf (listed : t ∈ ts) (failed : params.valueOf t = .error e) :
    ClauseError params ts e := by
  rw [valueOf] at failed
  cases literal : t.literal with
  | placeholder name =>
    obtain ⟨word, rfl, spelt⟩ := Token.word_of_literal_eq_placeholder literal
    rw [literal, Params.bind] at failed
    split at failed
    · next missing =>
      cases failed
      exact .unbound listed spelt (.inl missing)
    · next v found =>
      split at failed
      · next placeholder =>
        cases failed
        cases v with
        | placeholder other => exact .unbound listed spelt (.inr ⟨other, found⟩)
        | _ => cases placeholder
      · cases failed
  | _ =>
    rw [literal, bind_of_plain rfl] at failed
    cases failed

theorem Params.clauseError_of_countOf (listed : t ∈ ts) (failed : params.countOf t = .error e) :
    ClauseError params ts e := by
  rw [countOf] at failed
  cases value : params.valueOf t with
  | error x =>
    rw [value] at failed
    cases failed
    exact clauseError_of_valueOf listed value
  | ok v =>
    simp only [value, Bind.bind, Except.bind] at failed
    split at failed
    · split at failed <;> cases failed
      exact .syntactic (.malformed _)
    · cases failed
      exact .syntactic (.malformed _)

theorem Context.raises_value : Raises ts (ClauseError ctx.params ts) ctx.value :=
  .value_bind ClauseError.of_syntax fun _ listed => .ofExcept fun _ failed =>
    Params.clauseError_of_valueOf listed failed

theorem Context.raises_count : Raises ts (ClauseError ctx.params ts) ctx.count :=
  .value_bind ClauseError.of_syntax fun _ listed => .ofExcept fun _ failed =>
    Params.clauseError_of_countOf listed failed

/-! ### WHERE -/

namespace Condition

theorem raises_afterField {field : String} :
    Raises ts (ClauseError ctx.params ts) (afterField ctx field) := by
  refine .bind .next fun t => ?_
  split
  · exact .malformed ClauseError.of_syntax
  · split
    · exact .unexpected ClauseError.of_syntax
    · exact .bind Context.raises_value fun _ => .pure
  · refine .ite (fun _ => .bind Context.raises_value fun v => ?_) fun _ =>
      .unexpected ClauseError.of_syntax
    split
    · exact .pure
    · exact .malformed ClauseError.of_syntax

theorem raises_condition {first : Option Token} :
    Raises ts (ClauseError ctx.params ts) (condition ctx first) := by
  rw [condition.eq_def]
  split
  · exact .malformed ClauseError.of_syntax
  · split
    · exact raises_afterField
    · exact .unexpected ClauseError.of_syntax

theorem afterTerm_eq_error (failed : afterTerm t = .error e) : e = .unexpectedToken t := by
  rw [afterTerm] at failed
  split at failed
  · cases failed
  · split at failed <;> cases failed
    rfl

theorem raises_chain {r : Reader Predicate} (each : Raises ts (ClauseError params ts) r) :
    Raises ts (ClauseError params ts) (chain r) := by
  refine .bind each fun _ => .bind (.loop (fun t e failed => ?_) (fun _ _ => ?_) _) fun _ => .pure
  · rw [afterTerm_eq_error failed]
    exact .syntactic (.unexpected t)
  · exact .bind each fun _ => .pure

theorem raises_term {room : Nat} : Raises ts (ClauseError ctx.params ts) (term ctx room) := by
  induction room with
  | zero =>
    refine .bind .next fun t => ?_
    split
    · exact .malformed ClauseError.of_syntax
    · exact raises_condition
  | succ room ih =>
    refine .bind .next fun t => ?_
    split
    · refine .bind .at? fun _ => .ite (fun _ => .malformed ClauseError.of_syntax) fun _ => ?_
      refine .bind (raises_chain ih) fun _ => .bind .eat fun _ => .ite (fun _ => .pure) fun _ => ?_
      exact .malformed ClauseError.of_syntax
    · exact raises_condition

theorem raises_predicate : Raises ts (ClauseError ctx.params ts) (predicate ctx) :=
  .bind (raises_chain raises_term) fun _ => .bind .at? fun _ =>
    .ite (fun _ => .unexpected ClauseError.of_syntax) fun _ => .pure

theorem raises_whereClause? : Raises ts (ClauseError ctx.params ts) (whereClause? ctx) :=
  .bind .eatKeyword fun _ => .ite (fun _ => .bind raises_predicate fun _ => .pure) fun _ => .pure

end Condition

/-! ### The other clauses -/

theorem TableRef.raises_reader (syntactic : ∀ e : CompileError, e.OfSyntax → E e) :
    Raises ts E TableRef.reader :=
  .bind (.name syntactic) fun _ => .bind (.alias? syntactic) fun _ => .pure

theorem Select.raises_columns (syntactic : ∀ e : CompileError, e.OfSyntax → E e) :
    Raises ts E Select.columns := by
  have each : Raises ts E column := by
    refine .bind .peek fun _ => .ite (fun _ => .bind .next fun _ => .pure) fun _ => ?_
    refine .bind (.name syntactic) fun _ => .bind .eatKeyword fun _ => .ite (fun _ => ?_) fun _ =>
      .pure
    exact .bind (.name syntactic) fun _ => .pure
  exact .bind .peek fun _ => .ite (fun _ => .malformed_bind syntactic) fun _ => .list each

theorem Select.raises_projection (syntactic : ∀ e : CompileError, e.OfSyntax → E e)
    {primaryKey : String} {columns : List Select.Column} :
    Raises ts E (Reader.ofExcept (Select.projection primaryKey columns)) := by
  refine .ofExcept fun e failed => ?_
  rw [Select.projection] at failed
  split at failed
  · split at failed <;> cases failed
    exact syntactic _ (.malformed _)
  · cases failed

theorem Ordering.raises_orderBy (syntactic : ∀ e : CompileError, e.OfSyntax → E e) :
    Raises ts E Ordering.orderBy := by
  have each : Raises ts E element :=
    .bind (.name syntactic) fun _ => .bind .eatKeyword fun _ => .ite (fun _ => .pure) fun _ =>
      .bind .eatKeyword fun _ => .pure
  exact .bind .eatKeyword fun _ => .ite (fun _ => .bind (.expectKeyword syntactic) fun _ =>
    .list each) fun _ => .pure

theorem Ordering.raises_limit? : Raises ts (ClauseError ctx.params ts) (Ordering.limit? ctx) := by
  refine .bind .eatKeyword fun _ => .ite (fun _ => ?_) fun _ => .pure
  refine .bind Context.raises_count fun _ => .bind .eat fun _ => .ite (fun _ => ?_) fun _ => ?_
  · exact .bind Context.raises_count fun _ => .pure
  · refine .bind .eatKeyword fun _ => .ite (fun _ => ?_) fun _ => .pure
    exact .bind Context.raises_count fun _ => .pure

namespace Join

theorem start?_eq_error (failed : start? t = .error e) : JoinError e := by
  rw [start?] at failed
  split at failed
  · cases failed
  · split at failed
    · cases failed
    · split at failed <;> cases failed
      exact .unsupported _

theorem lookup_eq_error {outer joined : TableRef} {left right : String}
    (failed : lookup outer joined left right = .error e) : JoinError e := by
  rw [lookup] at failed
  split at failed <;> cases failed
  exact .ambiguous left right

theorem raises_afterJoin (syntactic : ∀ e : CompileError, e.OfSyntax → E e)
    (joining : ∀ e, JoinError e → E e) {outer : TableRef} :
    Raises ts E (joinReader.afterJoin outer) := by
  rw [joinReader.afterJoin]
  refine .bind (TableRef.raises_reader syntactic) fun _ => ?_
  refine .bind (.expectKeyword syntactic) fun _ => .bind .eat fun _ => ?_
  refine .bind (.name syntactic) fun _ => ?_
  refine .bind .next fun _ => .ite (fun _ => .malformed_bind syntactic) fun _ => ?_
  refine .bind (.name syntactic) fun _ => ?_
  have found : ∀ {joined left right},
      Raises ts E (Reader.ofExcept (lookup outer joined left right)) :=
    .ofExcept fun e failed => joining e (lookup_eq_error failed)
  exact .ite (fun _ => .bind (.expect syntactic) fun _ => found) fun _ => found

theorem raises_joins (syntactic : ∀ e : CompileError, e.OfSyntax → E e)
    (joining : ∀ e, JoinError e → E e) {outer : TableRef} : Raises ts E (joins outer) := by
  refine .loop (fun t e failed => joining e (start?_eq_error failed)) (fun _ s => ?_) _
  refine .bind ?_ fun _ => .pure
  cases s with
  | join => exact raises_afterJoin syntactic joining
  | left =>
    refine .bind .eatKeyword fun _ => .bind (.expectKeyword syntactic) fun _ => ?_
    exact raises_afterJoin syntactic joining

end Join

/-! ### Statements

Each proof has one rule for each line of the reader. -/

theorem Delete.raises_statement :
    Raises ts (ClauseError ctx.params ts) (Delete.statement ctx) := by
  refine .bind (.expectKeyword ClauseError.of_syntax) fun _ => ?_
  refine .bind (.expectKeyword ClauseError.of_syntax) fun _ => ?_
  refine .bind (.name ClauseError.of_syntax) fun _ => ?_
  refine .bind Condition.raises_whereClause? fun _ => ?_
  exact .bind (.finish ClauseError.of_syntax) fun _ => .pure

theorem Update.raises_assignment {fields : OrderedMap Value} :
    Raises ts (ClauseError ctx.params ts) (assignment ctx fields) := by
  refine .bind (.name ClauseError.of_syntax) fun _ => ?_
  refine .bind .next fun _ => .ite (fun _ => .malformed_bind ClauseError.of_syntax) fun _ => ?_
  refine .bind Context.raises_value fun _ => ?_
  exact .ite (fun _ => .malformed_bind ClauseError.of_syntax) fun _ => .pure

theorem Update.raises_statement :
    Raises ts (ClauseError ctx.params ts) (Update.statement ctx) := by
  refine .bind (.expectKeyword ClauseError.of_syntax) fun _ => ?_
  refine .bind (.name ClauseError.of_syntax) fun _ => ?_
  refine .bind (.expectKeyword ClauseError.of_syntax) fun _ => ?_
  refine .bind (.separated (fun _ => raises_assignment) _) fun _ => ?_
  refine .bind Condition.raises_whereClause? fun _ => ?_
  exact .bind (.finish ClauseError.of_syntax) fun _ => .pure

/-- A selection can also have a join that is wrong. -/
theorem Select.raises_statement :
    Raises ts (fun e => ClauseError ctx.params ts e ∨ JoinError e) (Select.statement ctx) := by
  have syntactic : ∀ e : CompileError, e.OfSyntax → ClauseError ctx.params ts e ∨ JoinError e :=
    fun _ h => .inl (.syntactic h)
  refine .bind (.expectKeyword syntactic) fun _ => .bind .eatKeyword fun _ => ?_
  refine .bind (raises_columns syntactic) fun _ => ?_
  refine .bind (.expectKeyword syntactic) fun _ => ?_
  refine .bind (TableRef.raises_reader syntactic) fun _ => ?_
  refine .bind (Join.raises_joins syntactic fun _ => .inr) fun _ => ?_
  refine .bind (Condition.raises_whereClause?.mono fun _ => .inl) fun _ => ?_
  refine .bind (Ordering.raises_orderBy syntactic) fun _ => ?_
  refine .bind (Ordering.raises_limit?.mono fun _ => .inl) fun _ => ?_
  refine .bind (.finish syntactic) fun _ => ?_
  exact .bind (raises_projection syntactic) fun _ => .pure

namespace Procedure

theorem clauseError_of_argumentOf {position : Nat} (listed : t ∈ ts)
    (failed : argumentOf params position t = .error e) : ClauseError params ts e := by
  rw [argumentOf] at failed
  split at failed
  · next name placeholder =>
    refine Params.clauseError_of_valueOf listed ?_
    rw [Params.valueOf, placeholder]
    cases bound : params.bind (.placeholder name) with
    | error x =>
      rw [bound] at failed
      cases failed
      rfl
    | ok v =>
      rw [bound] at failed
      cases failed
  · cases failed

theorem raises_argument {fields : OrderedMap Value} :
    Raises ts (ClauseError ctx.params ts) (argument ctx fields) := by
  refine .value_bind ClauseError.of_syntax fun t listed => ?_
  refine .bind (.ofExcept fun _ failed => clauseError_of_argumentOf listed failed) fun _ => ?_
  exact .ite (fun _ => .malformed_bind ClauseError.of_syntax) fun _ => .pure

theorem raises_arguments : Raises ts (ClauseError ctx.params ts) (arguments ctx) := by
  refine .bind .eat fun _ => .ite (fun _ => ?_) fun _ => .pure
  refine .bind .eat fun _ => .ite (fun _ => .pure) fun _ => ?_
  refine .bind (.separated (fun _ => raises_argument) _) fun _ => ?_
  exact .bind (.expect ClauseError.of_syntax) fun _ => .pure

/-- A call does not fail at its keyword if that is next. -/
theorem clauseError_of_statement {q : List Token} (opened : ∃ k ∈ keywords, t.isKeyword k = true)
    (failed : ((statement ctx).run (t :: q)).1 = .error e) :
    ClauseError ctx.params (t :: q) e := by
  rw [statement, run_bind, run_atKeyword, continueWith_ok, run_bind, run_startKeyword opened,
    continueWith_ok] at failed
  refine (?_ : Raises (t :: q) (ClauseError ctx.params (t :: q)) _)
    q (List.suffix_cons t q) e failed
  have last : ∀ {d : Descriptor}, Raises (t :: q) (ClauseError ctx.params (t :: q))
      (finish >>= fun _ => Pure.pure d) := .bind (.finish ClauseError.of_syntax) fun _ => .pure
  refine .bind (.name ClauseError.of_syntax) fun _ => .bind raises_arguments fun _ => ?_
  refine .ite (fun _ => .bind .eat fun _ => ?_) fun _ => last
  exact .bind (.expectKeyword ClauseError.of_syntax) fun _ => .bind .eat fun _ => last

end Procedure

namespace Insert

theorem raises_inParentheses (syntactic : ∀ e : CompileError, e.OfSyntax → E e) {α : Type}
    {item : Reader α} (each : Raises ts E item) : Raises ts E (inParentheses item) := by
  refine .bind (.expect syntactic) fun _ => ?_
  refine .bind .at? fun _ => .ite (fun _ => .malformed_bind syntactic) fun _ => ?_
  exact .bind (.list each) fun _ => .bind (.expect syntactic) fun _ => .pure

theorem raises_lists (syntactic : ∀ e : CompileError, e.OfSyntax → E e) : Raises ts E lists := by
  refine .bind (.expectKeyword syntactic) fun _ => .bind .eatKeyword fun _ => ?_
  refine .bind (.expectKeyword syntactic) fun _ => .bind (.name syntactic) fun _ => ?_
  refine .bind (raises_inParentheses syntactic (.name syntactic)) fun columns => ?_
  have row : ∀ {d : Descriptor}, Raises ts E (inParentheses Reader.value >>= fun row =>
      finish >>= fun _ => Pure.pure (d, columns, row)) :=
    .bind (raises_inParentheses syntactic (.value syntactic)) fun _ =>
      .bind (.finish syntactic) fun _ => .pure
  refine .bind .eatKeyword fun _ => .ite (fun _ => row) fun _ => ?_
  exact .bind .eatKeyword fun _ => .ite (fun _ => row) fun _ => .malformed_bind syntactic

theorem clauseError_of_assign {fields : OrderedMap Value} {es : List (String × Token)}
    (listed : ∀ x ∈ es, x.2 ∈ ts) (failed : assign params fields es = .error e) :
    ClauseError params ts e := by
  induction es generalizing fields with
  | nil => cases failed
  | cons x es ih =>
    obtain ⟨column, t⟩ := x
    obtain ⟨here, others⟩ := List.forall_mem_cons.mp listed
    rw [assign] at failed
    cases value : params.valueOf t with
    | error x =>
      rw [value] at failed
      cases failed
      exact Params.clauseError_of_valueOf here value
    | ok v =>
      simp only [value, Bind.bind, Except.bind] at failed
      split at failed
      · cases failed
        exact .syntactic (.malformed _)
      · exact ih others failed

/-- Columns and values are paired unless their numbers differ or a clause is wrong. -/
theorem pair_eq_error {columns : List String} {row : List Token} (listed : row ⊆ ts)
    (failed : pair params columns row = .error e) :
    (columns.length ≠ row.length ∧ e = .columnCountMismatch columns.length row.length) ∨
      ClauseError params ts e := by
  rw [pair] at failed
  split at failed
  · next differ =>
    cases failed
    exact .inl ⟨differ, rfl⟩
  · exact .inr (clauseError_of_assign (fun x hx => listed (List.of_mem_zip hx).2) failed)

/-- The values of a row are tokens of it. -/
theorem subset_of_items {row : List Token}
    (items : Items (fun _ p t => p = [t] ∧ t.isValue = true) rest p row) : row ⊆ p := by
  induction items with
  | last only =>
    rw [only.1]
    exact List.Subset.refl _
  | more first _ ih =>
    rw [first.1]
    exact List.cons_subset_cons _ fun _ ht => List.mem_cons_of_mem _ (ih ht)

theorem ListsOf.row_subset {d : Descriptor} {columns : List String} {row : List Token}
    (h : ListsOf ts d columns row) : row ⊆ ts := by
  cases h with
  | lists _ _ _ _ _ _ given =>
    intro t ht
    have := subset_of_items given ht
    simp [this]

/-- The numbers of columns and values differ in an insertion that is otherwise complete. -/
inductive CountError (ts : List Token) : CompileError → Prop where
  | mismatch {d : Descriptor} {columns : List String} {row : List Token}
      (lists : ListsOf ts d columns row) (differ : columns.length ≠ row.length) :
      CountError ts (.columnCountMismatch columns.length row.length)

theorem error_of_statement (failed : ((statement ctx).run ts).1 = .error e) :
    ClauseError ctx.params ts e ∨ CountError ts e := by
  by_cases syntactic : e.OfSyntax
  · exact .inl (.syntactic syntactic)
  rw [statement_eq] at failed
  obtain ⟨p, ⟨d, columns, row⟩, rest, whole, reads, failed⟩ :=
    (raises_lists fun _ h => h).passes syntactic failed
  obtain ⟨rfl, lists⟩ := reads_lists.mp reads
  rw [List.append_nil] at whole
  subst whole
  dsimp only at failed
  rw [run_bind, run_ofExcept] at failed
  cases paired : pair ctx.params columns row with
  | ok fields =>
    rw [paired] at failed
    cases failed
  | error x =>
    rw [paired] at failed
    cases failed
    rcases pair_eq_error lists.row_subset paired with ⟨differ, rfl⟩ | clause
    · exact .inr (.mismatch lists differ)
    · exact .inl clause

end Insert

namespace Statement

/-- The errors of statements, each with where it can come from. -/
inductive ErrorOf (params : Params) (ts : List Token) : CompileError → Prop where
  | unrecognized {start : String} (unopened : ∀ o : Opening, ∀ k ∈ o.keywords, ¬ AtKeyword k ts) :
      ErrorOf params ts (.unrecognizedStatement start)
  | clause {e : CompileError} (h : ClauseError params ts e) : ErrorOf params ts e
  | join {e : CompileError} (select : AtKeyword "SELECT" ts) (h : JoinError e) : ErrorOf params ts e
  | count {e : CompileError} (h : Insert.CountError ts e) : ErrorOf params ts e

/-- A statement is not recognized if it starts with none of the keywords. -/
theorem unrecognized_of_unopened
    (unopened : ∀ o : Opening, ∀ k ∈ o.keywords, ¬ AtKeyword k ts) :
    ∃ start, ofTokens ctx ts = .error (.unrecognizedStatement start) := by
  rcases ts with _ | ⟨t, q⟩
  · exact ⟨_, rfl⟩
  · cases t with
    | word text =>
      have missing : opening? text = none := by
        refine Option.eq_none_iff_forall_ne_some.mpr fun o found => ?_
        obtain ⟨k, listed, first⟩ := opening?_eq_some_iff_isKeyword.mp found
        exact unopened o k listed (atKeyword_cons.mpr first)
      refine ⟨Text.upper text, ?_⟩
      simp [ofTokens, reader, missing]
    | _ => exact ⟨_, rfl⟩

theorem error_of_readerOf {o : Opening} {text : String} {q : List Token}
    (found : opening? text = some o)
    (failed : ((readerOf ctx o).run (.word text :: q)).1 = .error e) :
    ErrorOf ctx.params (.word text :: q) e := by
  obtain ⟨k, listed, first⟩ := opening?_eq_some_iff_isKeyword.mp found
  cases o with
  | select =>
    obtain rfl := List.mem_singleton.mp listed
    rcases Select.raises_statement _ List.suffix_rfl e failed with clause | join
    · exact .clause clause
    · exact .join (atKeyword_cons.mpr first) join
  | insert =>
    rcases Insert.error_of_statement failed with clause | count
    · exact .clause clause
    · exact .count count
  | update => exact .clause (Update.raises_statement _ List.suffix_rfl e failed)
  | delete => exact .clause (Delete.raises_statement _ List.suffix_rfl e failed)
  | procedure => exact .clause (Procedure.clauseError_of_statement ⟨k, listed, first⟩ failed)

theorem error_of_ofTokens (failed : ofTokens ctx ts = .error e) : ErrorOf ctx.params ts e := by
  by_cases unopened : ∀ o : Opening, ∀ k ∈ o.keywords, ¬ AtKeyword k ts
  · obtain ⟨start, same⟩ : ∃ start, ofTokens ctx ts = .error (.unrecognizedStatement start) :=
      unrecognized_of_unopened unopened
    rw [failed] at same
    cases same
    exact .unrecognized unopened
  · simp only [not_forall, not_not] at unopened
    obtain ⟨o, k, listed, first⟩ := unopened
    rcases ts with _ | ⟨t, q⟩
    · exact absurd first atKeyword_nil
    · cases t with
      | word text =>
        have found := opening?_eq_some_iff_isKeyword.mpr ⟨k, listed, atKeyword_cons.mp first⟩
        rw [ofTokens_of_opening? found] at failed
        exact error_of_readerOf found failed
      | _ => cases first

theorem ErrorOf.unopened {start : String} (h : ErrorOf params ts (.unrecognizedStatement start)) :
    ∀ o : Opening, ∀ k ∈ o.keywords, ¬ AtKeyword k ts := by
  cases h with
  | unrecognized unopened => exact unopened
  | clause h => cases h with | syntactic h => cases h
  | join _ h => cases h
  | count h => cases h

theorem ErrorOf.lists {c v : Nat} (h : ErrorOf params ts (.columnCountMismatch c v)) :
    ∃ d columns row, Insert.ListsOf ts d columns row ∧ c = columns.length ∧ v = row.length ∧
      c ≠ v := by
  cases h with
  | clause h => cases h with | syntactic h => cases h
  | join _ h => cases h
  | count h => cases h with | mismatch lists differ => exact ⟨_, _, _, lists, rfl, rfl, differ⟩

theorem ErrorOf.select (h : ErrorOf params ts e) (join : JoinError e) : AtKeyword "SELECT" ts := by
  cases h with
  | join select => exact select
  | unrecognized => cases join
  | clause h => cases join <;> cases h with | syntactic h => cases h
  | count h => cases join <;> cases h

theorem ErrorOf.unbound {name : String} (h : ErrorOf params ts (.missingBinding name)) :
    .word (":" ++ name) ∈ ts ∧
      (params.get? name = none ∨ ∃ other, params.get? name = some (.placeholder other)) := by
  cases h with
  | clause h =>
    cases h with
    | syntactic h => cases h
    | unbound stands placeholder missing =>
      rw [← Literal.eq_of_placeholder? placeholder]
      exact ⟨stands, missing⟩
  | join _ h => cases h
  | count h => cases h

theorem exists_mem_keywords_iff {k : String} : (∃ o : Opening, k ∈ o.keywords) ↔
    k ∈ ["SELECT", "INSERT", "UPDATE", "DELETE", "CALL", "EXEC", "EXECUTE", "BEGIN"] := by
  constructor
  · rintro ⟨o, listed⟩
    cases o <;> simp only [Opening.keywords, Procedure.keywords, List.mem_cons, List.not_mem_nil,
      or_false] at listed ⊢
    all_goals tauto
  · intro listed
    have each : ∀ k ∈ ["SELECT", "INSERT", "UPDATE", "DELETE", "CALL", "EXEC", "EXECUTE", "BEGIN"],
        ∃ o ∈ [Opening.select, .insert, .update, .delete, .procedure], k ∈ o.keywords := by decide
    obtain ⟨o, _, opens⟩ := each k listed
    exact ⟨o, opens⟩

end Statement

namespace Insert

/-- An insertion starts with its keyword, and its lists are not empty. -/
theorem ListsOf.opens {d : Descriptor} {columns : List String} {row : List Token}
    (h : ListsOf ts d columns row) :
    AtKeyword "INSERT" ts ∧ 1 ≤ columns.length ∧ 1 ≤ row.length := by
  cases h with
  | lists insert _ _ _ listed _ given =>
    exact ⟨atKeyword_cons.mpr insert, List.length_pos_iff.mpr listed.ne_nil,
      List.length_pos_iff.mpr given.ne_nil⟩

end Insert

/-- A text that is not tokenized has a malformed clause; other errors are of its tokens. -/
theorem errorOf_of_compile {settings : Settings} {text : String}
    (failed : compile settings text params = .error e)
    (other : ∀ fault, e ≠ .malformedClause fault) :
    ∃ tokens, Token.tokenize (Statement.normalize text) = .ok tokens ∧
      Statement.ErrorOf params tokens e := by
  rw [compile] at failed
  cases tokenized : Token.tokenize (Statement.normalize text) with
  | error x =>
    rw [tokenized] at failed
    cases failed
    rw [Token.tokenize] at tokenized
    split at tokenized <;> cases tokenized
    exact absurd rfl (other _)
  | ok tokens =>
    rw [tokenized] at failed
    exact ⟨tokens, rfl, Statement.error_of_ofTokens failed⟩

/-- An error of compiling says something about the tokens of the statement. It is not recognized
exactly when its first word is none of the keywords. The counts of an insertion are those of its
lists, and differ. Joins are the fault of selections only. A binding is missing only for a
placeholder that stands in the statement and has no parameter that is a value. -/
theorem error_facts_of_compile {settings : Settings} {text : String} {params : Params}
    {e : CompileError} (failed : compile settings text params = .error e) :
    ((∃ start, e = .unrecognizedStatement start) ↔
      ∃ tokens, Token.tokenize (Statement.normalize text) = .ok tokens ∧
        ∀ keyword ∈ ["SELECT", "INSERT", "UPDATE", "DELETE", "CALL", "EXEC", "EXECUTE", "BEGIN"],
          ¬ AtKeyword keyword tokens) ∧
    (∀ c v, e = .columnCountMismatch c v → ∃ tokens d columns row,
      Token.tokenize (Statement.normalize text) = .ok tokens ∧ AtKeyword "INSERT" tokens ∧
        Insert.ListsOf tokens d columns row ∧ c = columns.length ∧ v = row.length ∧
        1 ≤ c ∧ 1 ≤ v ∧ c ≠ v) ∧
    (∀ kind left right, e = .unsupportedJoin kind ∨ e = .ambiguousJoinField left right →
      ∃ tokens, Token.tokenize (Statement.normalize text) = .ok tokens ∧
        AtKeyword "SELECT" tokens) ∧
    (∀ name, e = .missingBinding name →
      ∃ tokens, Token.tokenize (Statement.normalize text) = .ok tokens ∧
        .word (":" ++ name) ∈ tokens ∧
        (params.get? name = none ∨ ∃ other, params.get? name = some (.placeholder other))) := by
  refine ⟨⟨?_, ?_⟩, ?_, ?_, ?_⟩
  · rintro ⟨start, rfl⟩
    obtain ⟨tokens, tokenized, error⟩ := errorOf_of_compile failed fun _ h => by cases h
    refine ⟨tokens, tokenized, fun k listed => ?_⟩
    obtain ⟨o, opens⟩ := Statement.exists_mem_keywords_iff.mpr listed
    exact error.unopened o k opens
  · rintro ⟨tokens, tokenized, unopened⟩
    have all : ∀ o : Statement.Opening, ∀ k ∈ o.keywords, ¬ AtKeyword k tokens := fun o k opens =>
      unopened k (Statement.exists_mem_keywords_iff.mp ⟨o, opens⟩)
    obtain ⟨start, same⟩ : ∃ start, Statement.ofTokens ⟨settings, params⟩ tokens =
        .error (.unrecognizedStatement start) := Statement.unrecognized_of_unopened all
    simp only [compile, tokenized, Bind.bind, Except.bind, same] at failed
    cases failed
    exact ⟨start, rfl⟩
  · rintro c v rfl
    obtain ⟨tokens, tokenized, error⟩ := errorOf_of_compile failed fun _ h => by cases h
    obtain ⟨d, columns, row, lists, rfl, rfl, differ⟩ := error.lists
    obtain ⟨insert, named, given⟩ := lists.opens
    exact ⟨tokens, d, columns, row, tokenized, insert, lists, rfl, rfl, named, given, differ⟩
  · intro kind left right join
    have at_join : JoinError e := by
      rcases join with rfl | rfl
      · exact .unsupported kind
      · exact .ambiguous left right
    obtain ⟨tokens, tokenized, error⟩ := errorOf_of_compile failed fun fault h => by
      rw [h] at at_join
      cases at_join
    exact ⟨tokens, tokenized, error.select at_join⟩
  · rintro name rfl
    obtain ⟨tokens, tokenized, error⟩ := errorOf_of_compile failed fun _ h => by cases h
    obtain ⟨stands, missing⟩ := error.unbound
    exact ⟨tokens, tokenized, stands, missing⟩

/-- Two columns and one value: the two lists are there, with these lengths. -/
theorem error_facts_of_short_row :
    compile {} "INSERT INTO t (a, b) VALUES (:x)" ∅ = .error (.columnCountMismatch 2 1) ∧
      ∃ tokens d columns row,
        Token.tokenize (Statement.normalize "INSERT INTO t (a, b) VALUES (:x)") = .ok tokens ∧
          AtKeyword "INSERT" tokens ∧ Insert.ListsOf tokens d columns row ∧ 2 = columns.length ∧
          1 = row.length ∧ 1 ≤ 2 ∧ 1 ≤ 1 ∧ 2 ≠ 1 := by
  have failed : compile {} "INSERT INTO t (a, b) VALUES (:x)" ∅ =
      .error (.columnCountMismatch 2 1) := by
    decide +kernel
  exact ⟨failed, (error_facts_of_compile failed).2.1 2 1 rfl⟩

end SqlBridge
