import SqlBridge.Proofs.Literal
import SqlBridge.Proofs.Statement.Place

/-!
# What becomes of a WHERE

The keyword WHERE is no name and no alias, for it is reserved. But where a value is expected every
word is one, and so is this. Hence a statement that compiles is parted by its WHERE clause: before
the clause the keyword stands as a value or not at all, and behind the clause it does not stand. A
statement has a filter exactly if the keyword stands somewhere where no value is expected.
-/

namespace SqlBridge

variable {ctx : Context} {params : Params} {p q rest : List Token} {d : Descriptor}

/-! ### Parts without the keyword -/

def NoWhere (p : List Token) : Prop :=
  ∀ t ∈ p, ¬ t.isKeyword "WHERE" = true

namespace NoWhere

variable {t : Token}

theorem nil : NoWhere [] := by
  simp [NoWhere]

theorem mark (apart : ¬ t.isKeyword "WHERE" = true) (others : NoWhere p) : NoWhere (t :: p) :=
  List.forall_mem_cons.mpr ⟨apart, others⟩

/-- The keyword is reserved, so it names nothing. -/
theorem name {name : String} (named : t.name? = some name) (others : NoWhere p) :
    NoWhere (t :: p) :=
  mark (Token.not_isKeyword_of_name? named (by decide)) others

theorem keyword {k : String} (same : t.isKeyword k = true)
    (apart : Text.upper k ≠ Text.upper "WHERE") (others : NoWhere p) : NoWhere (t :: p) :=
  mark (fun other => apart (Token.upper_eq_of_isKeyword same other)) others

theorem append (first : NoWhere p) (second : NoWhere q) : NoWhere (p ++ q) :=
  List.forall_mem_append.mpr ⟨first, second⟩

theorem items {α : Type} {J : List Token → List Token → α → Prop} {as : List α}
    (items : Reader.Items J rest p as) (each : ∀ {rest p a}, J rest p a → NoWhere p) :
    NoWhere p := by
  induction items with
  | last only => exact each only
  | more first _ ih => exact (each first).append (mark (by decide) ih)

end NoWhere

theorem Reader.Marked.noWhere {k : String} {found : Bool} (h : Marked k rest p found)
    (apart : Text.upper k ≠ Text.upper "WHERE") : NoWhere p := by
  cases h with
  | present here => exact .keyword here apart .nil
  | absent => exact .nil

theorem AliasOf.noWhere {o : Option String} (h : AliasOf rest p o) : NoWhere p := by
  cases h with
  | explicit as named => exact .keyword as (by decide) (.name named .nil)
  | bare named => exact .name (Reader.name?_of_bareAlias? named) .nil
  | absent => exact .nil

theorem TableOf.noWhere {table : TableRef} (h : TableOf rest p table) : NoWhere p := by
  cases h with
  | table named renamed => exact .name named renamed.noWhere

theorem Select.ColumnOf.noWhere {c : Column} (h : ColumnOf rest p c) : NoWhere p := by
  cases h with
  | star => exact .mark (by decide) .nil
  | renamed _ named as other => exact .name named (.keyword as (by decide) (.name other .nil))
  | plain _ named => exact .name named .nil

namespace Join

theorem Opens.noWhere (h : Opens p) : NoWhere p := by
  cases h with
  | join join => exact .keyword join (by decide) .nil
  | left left join => exact .keyword left (by decide) (.keyword join (by decide) .nil)
  | leftOuter left outer join =>
    exact .keyword left (by decide)
      (.keyword outer (by decide) (.keyword join (by decide) .nil))

theorem EqualityOf.noWhere {left right : String} (h : EqualityOf p left right) : NoWhere p := by
  have sign : ¬ (Token.symbol "=").isKeyword "WHERE" = true := by decide
  cases h with
  | bare first second => exact .name first (.mark sign (.name second .nil))
  | enclosed first second =>
    exact .mark (by decide)
      (.name first (.mark sign (.name second (.mark (by decide) .nil))))

theorem JoinsOf.noWhere {outer : TableRef} {stages : List Lookup}
    (h : JoinsOf outer rest p stages) : NoWhere p := by
  induction h with
  | nil => exact .nil
  | cons opens first _ ih =>
    cases first with
    | on table on equality =>
      exact opens.noWhere.append
        ((table.noWhere.append (.keyword on (by decide) equality.noWhere)).append ih)

end Join

namespace Ordering

theorem ElementOf.noWhere {e : OrderElement} (h : ElementOf rest p e) : NoWhere p := by
  cases h with
  | descending named desc => exact .name named (.keyword desc (by decide) .nil)
  | ascending named asc => exact .name named (.keyword asc (by decide) .nil)
  | plain named => exact .name named .nil

theorem OrderByOf.noWhere {elements : List OrderElement} (h : OrderByOf rest p elements) :
    NoWhere p := by
  cases h with
  | clause order by_ items =>
    exact .keyword order (by decide) (.keyword by_ (by decide) (.items items ElementOf.noWhere))
  | absent => exact .nil

/-- As a value the keyword is a string. -/
theorem literal_of_where {text : String} (same : (Token.word text).isKeyword "WHERE" = true) :
    (Token.word text).literal = .str text := by
  have capital : "WHERE".toList.all Char.isUpper = true := by decide
  have letters := Text.isAlpha_of_sameWord same (List.all_eq_true.mp capital)
  have other : ∀ w ∈ ["true", "false", "null"], Text.sameWord text w = false := by
    intro w listed
    have apart : ∀ w ∈ ["true", "false", "null"], ¬ (Token.word text).isKeyword w = true :=
      Token.not_isKeyword_of_isKeyword same (by decide)
    exact Bool.eq_false_iff.mpr (apart w listed)
  cases split : text.toList with
  | nil =>
    have empty := Text.sameWord_iff_map_eq.mp same
    rw [split] at empty
    cases empty
  | cons c cs =>
    have first : text.toList.head? = some c := by rw [split, List.head?_cons]
    exact Literal.ofWord_of_isAlpha first (letters c (List.mem_of_mem_head? first)) other

/-- A string counts nothing, and neither does the keyword. -/
theorem not_where_of_countOf {t : Token} {n : UInt64} (h : ctx.CountOf t n) :
    ¬ t.isKeyword "WHERE" = true := by
  intro same
  obtain ⟨_, count⟩ := h
  cases t with
  | word text =>
    simp [Params.countOf, Params.valueOf, literal_of_where same, Params.bind, bind,
      Except.bind] at count
  | _ => cases same

theorem LimitOf.noWhere {o : Option Limit} (h : LimitOf ctx rest p o) : NoWhere p := by
  cases h with
  | count limit given =>
    exact .keyword limit (by decide) (.mark (not_where_of_countOf given) .nil)
  | pair limit first second =>
    exact .keyword limit (by decide) (.mark (not_where_of_countOf first)
      (.mark (by decide) (.mark (not_where_of_countOf second) .nil)))
  | offset limit first offset second =>
    exact .keyword limit (by decide) (.mark (not_where_of_countOf first)
      (.keyword offset (by decide) (.mark (not_where_of_countOf second) .nil)))
  | absent => exact .nil

theorem LimitOf.again {o : Option Limit} (h : LimitOf ctx rest p o) (settings : Settings) :
    LimitOf ⟨settings, ctx.params⟩ rest p o := by
  cases h with
  | count limit given ended => exact .count limit given ended
  | pair limit first second => exact .pair limit first second
  | offset limit first offset second => exact .offset limit first offset second
  | absent ended => exact .absent ended

end Ordering

/-! ### Places of the keyword -/

namespace Place

variable {s s' : Place}

/-- The keyword WHERE stands only where a value is expected. -/
def Unfiltered (s : Place) (p : List Token) : Prop :=
  ∀ x ∈ s.along p, x.1.isKeyword "WHERE" = true → x.2.holdsValue = true

theorem Unfiltered.nil : s.Unfiltered [] := by
  simp [Unfiltered, along]

theorem Unfiltered.cons {t : Token} (apart : t.isKeyword "WHERE" = true → s.holdsValue = true)
    (leads : s.next t = s') (others : s'.Unfiltered p) : s.Unfiltered (t :: p) :=
  (forall_along_cons leads).mpr ⟨apart, others⟩

theorem Unfiltered.append (first : s.Unfiltered p) (leads : s.after p = s')
    (second : s'.Unfiltered q) : s.Unfiltered (p ++ q) :=
  (forall_along_append leads).mpr ⟨first, second⟩

theorem finished_after : finished.after p = .finished := by
  induction p with
  | nil => rfl
  | cons t p ih => exact ih

/-- As long as the row goes on, every word is a value. -/
theorem unfiltered_of_row (h : row.after p = .row) : row.Unfiltered p := by
  induction p with
  | nil => exact .nil
  | cons t p ih =>
    rw [after, List.foldl_cons] at h
    have stays : row.next t = .row := by
      by_cases closing : t = .rightParen
      · -- nothing leads back into the row
        rw [closing] at h
        exact absurd (finished_after.symm.trans h) (by decide)
      · rw [next, if_neg closing]
    rw [stays] at h
    exact .cons (fun _ => rfl) stays (ih h)

end Place

theorem NoWhere.unfiltered {s : Place} (h : NoWhere p) : s.Unfiltered p := by
  induction p generalizing s with
  | nil => exact .nil
  | cons t p ih =>
    obtain ⟨apart, others⟩ := List.forall_mem_cons.mp h
    exact .cons (fun same => absurd same apart) rfl (ih others)

namespace Update

theorem AssignmentOf.unfiltered {e : String × Value} (h : AssignmentOf params p e) :
    Place.field.Unfiltered p := by
  cases h with
  | assignment named given =>
    have apart := Token.not_isKeyword_of_name? named (k := "WHERE") (by decide)
    exact .cons (fun same => absurd same apart) (Place.field_next (Token.ne_paren_of_name? named).1)
      (.cons (by decide) rfl (.cons (fun _ => rfl) rfl .nil))

theorem unfiltered_of_assigned {es : List (String × Value)}
    (h : Reader.Items (fun _ => AssignmentOf params) rest p es) : Place.field.Unfiltered p := by
  induction h with
  | last only => exact only.unfiltered
  | more first _ ih =>
    exact first.unfiltered.append first.walk.after_eq (.cons (by decide) rfl ih)

end Update

theorem Procedure.ArgumentsOf.unfiltered {fields : OrderedMap Value}
    (h : ArgumentsOf ctx rest p fields) : Place.called.Unfiltered p := by
  cases h with
  | nothing => exact .nil
  | empty => exact NoWhere.unfiltered (.mark (by decide) (.mark (by decide) .nil))
  | listed items =>
    have given : Place.Walk ctx.params .row _ .row := items.walk rfl fun h => h.walk
    exact .cons (by decide) rfl ((Place.unfiltered_of_row given.after_eq).append given.after_eq
      (.cons (by decide) rfl .nil))

/-! ### Statements and their WHERE clause -/

/-- A statement as its WHERE clause parts it. Before the clause the keyword stands as a value, and
among the tokens of a selection or a deletion not even so; behind the clause it does not stand. -/
structure Statement.Opening.Parted (o : Opening) (ctx : Context) (before clause rest : List Token)
    (d : Descriptor) : Prop where
  unfiltered : Place.opening.Unfiltered before
  plain : d.kind ∈ [.select, .command, .delete] → NoWhere before
  starts : clause = [] ∨ (Place.opening.after before).StartsClause
  filtered : Condition.WhereOf ctx rest clause d.filter
  behind : NoWhere rest
  /-- What the other parts say does not depend on how the clause is read. -/
  again : ∀ settings : Settings, settings.primaryKey = ctx.settings.primaryKey →
    Condition.WhereOf ⟨settings, ctx.params⟩ rest clause d.filter →
      o.FormOf ⟨settings, ctx.params⟩ (before ++ (clause ++ rest)) d

namespace Statement.Opening

/-- A statement of a kind without WHERE clauses has an absent one at its end. -/
theorem Parted.of_absent {o : Opening} (unfiltered : Place.opening.Unfiltered p)
    (kind : d.kind ∉ [.select, .command, .delete]) (filter : d.filter = none)
    (again : ∀ settings : Settings, settings.primaryKey = ctx.settings.primaryKey →
      o.FormOf ⟨settings, ctx.params⟩ p d) : o.Parted ctx p [] [] d where
  unfiltered := unfiltered
  plain listed := absurd listed kind
  starts := .inl rfl
  filtered := filter ▸ .absent Reader.atKeyword_nil
  behind := .nil
  again settings key _ := by
    rw [List.append_nil, List.append_nil]
    exact again settings key

end Statement.Opening

theorem Delete.StatementOf.parted (h : StatementOf ctx p d) :
    ∃ before clause rest, p = before ++ (clause ++ rest) ∧
      Statement.Opening.Parted .delete ctx before clause rest d := by
  cases h with
  | @delete k j t q _ _ delete from_ named filtered =>
    have before : NoWhere [k, j, t] :=
      .keyword delete (by decide) (.keyword from_ (by decide) (.name named .nil))
    have walk : Place.Walk ctx.params .opening [k, j, t] .clause :=
      walk_before_where delete from_ named
    refine ⟨[k, j, t], q, [], by simp, before.unfiltered, fun _ => before,
      .inr (walk.after_eq ▸ .inl rfl), filtered, .nil, fun settings _ again => ?_⟩
    rw [List.append_nil]
    exact .delete delete from_ named again

theorem Update.StatementOf.parted (h : StatementOf ctx p d) :
    ∃ before clause rest, p = before ++ (clause ++ rest) ∧
      Statement.Opening.Parted .update ctx before clause rest d := by
  cases h with
  | @update k t j p q _ _ _ update named set assigned filtered =>
    have walk := walk_before_where update named set assigned
    have start : NoWhere [k, t, j] :=
      .keyword update (by decide) (.name named (.keyword set (by decide) .nil))
    have reaches : Place.Walk ctx.params .opening [k, t, j] .field :=
      walk_before_assignments update named set
    have before : Place.opening.Unfiltered ([k, t, j] ++ p) :=
      start.unfiltered.append reaches.after_eq (unfiltered_of_assigned assigned)
    refine ⟨k :: t :: j :: p, q, [], by simp, before, by simp,
      .inr (walk.after_eq ▸ .inr rfl), filtered, .nil, fun settings _ again => ?_⟩
    rw [List.append_nil]
    exact .update update named set assigned again

theorem Insert.StatementOf.parted (h : StatementOf ctx p d) :
    Statement.Opening.Parted .insert ctx p [] [] d := by
  cases h with
  | @insert k j t v w p q _ _ _ insert ignoring into named columns values row =>
    refine .of_absent ?_ (by simp) rfl fun settings _ => ?_
    · have walk : Place.Walk ctx.params .opening _ .row :=
        walk_before_row insert ignoring into named columns values
      have heading : NoWhere [.rightParen, v, .leftParen] := by
        rcases values with values | values <;>
          exact .mark (by decide) (.keyword values (by decide) (.mark (by decide) .nil))
      have names : NoWhere p := .items columns fun h => by
        obtain ⟨t, rfl, named⟩ := h
        exact .name named .nil
      have before : NoWhere
          (k :: (w ++ j :: t :: .leftParen :: (p ++ [.rightParen, v, .leftParen]))) :=
        .keyword insert (by decide) ((ignoring.noWhere (by decide)).append
          (.keyword into (by decide) (.name named (.mark (by decide) (names.append heading)))))
      have given : Place.Walk ctx.params .row q .row := row.walk rfl fun h => h.walk
      have closed : Place.row.Unfiltered (q ++ [.rightParen]) :=
        (Place.unfiltered_of_row given.after_eq).append given.after_eq (.cons (by decide) rfl .nil)
      simpa only [List.cons_append, List.nil_append, List.append_assoc] using
        before.unfiltered.append walk.after_eq closed
    · exact .insert insert ignoring into named columns values row

namespace Procedure

theorem Separator.noWhere (h : Separator p) : NoWhere p := by
  cases h with
  | nothing => exact .nil
  | semicolon => exact .mark (by decide) .nil

theorem ArgumentsOf.again {fields : OrderedMap Value} (h : ArgumentsOf ctx rest p fields)
    (settings : Settings) : ArgumentsOf ⟨settings, ctx.params⟩ rest p fields := by
  cases h with
  | nothing ended => exact .nothing ended
  | empty => exact .empty
  | listed items => exact .listed items

/-- The keyword and the name of a call are no WHERE. -/
theorem unfiltered_of_called {k t : Token} {keyword name : String} (listed : keyword ∈ keywords)
    (opens : k.isKeyword keyword = true) (named : t.name? = some name)
    (behind : Place.called.Unfiltered p) : Place.opening.Unfiltered (k :: t :: p) := by
  have apart : ∀ c ∈ keywords, Text.upper c ≠ Text.upper "WHERE" := by decide
  have start : NoWhere [k, t] := .keyword opens (apart keyword listed) (.name named .nil)
  have reaches : Place.Walk ∅ .opening [k, t] .called := walk_before_arguments listed opens named
  exact start.unfiltered.append reaches.after_eq behind

theorem StatementOf.parted (h : StatementOf ctx p d) :
    Statement.Opening.Parted .procedure ctx p [] [] d := by
  cases h with
  | call called opens named passed =>
    refine .of_absent ?_ (by simp) rfl fun settings _ => ?_
    · exact unfiltered_of_called (mem_keywords_iff.mpr (.inl called)) opens named passed.unfiltered
    · exact .call called opens named (passed.again settings)
  | @block k t e q v w _ _ opens named passed before closes after =>
    refine .of_absent ?_ (by simp) rfl fun settings _ => ?_
    · have tail : NoWhere (v ++ e :: w) :=
        before.noWhere.append (.keyword closes (by decide) after.noWhere)
      exact unfiltered_of_called (by decide) opens named
        (passed.unfiltered.append rfl tail.unfiltered)
    · exact .block opens named (passed.again settings) before closes after

end Procedure

namespace Select

theorem StatementOf.parted (h : StatementOf ctx p d) :
    ∃ before clause rest, p = before ++ (clause ++ rest) ∧
      Statement.Opening.Parted .select ctx before clause rest d := by
  cases h with
  | @select k f w c _ distinct _ _ _ _ _ _ _ select marked listed from_ clauses shows =>
    cases clauses with
    | @clauses t j q o l _ _ _ _ _ named joined filtered ordered limited =>
      have walk : Place.Walk ctx.params .opening _ .clause :=
        walk_before_where select marked listed from_ named joined
      have before : NoWhere (k :: (w ++ (c ++ f :: (t ++ j)))) :=
        .keyword select (by decide) ((marked.noWhere (by decide)).append
          ((NoWhere.items listed ColumnOf.noWhere).append
            (.keyword from_ (by decide) (named.noWhere.append joined.noWhere))))
      refine ⟨k :: (w ++ (c ++ f :: (t ++ j))), q, o ++ l, by simp, before.unfiltered,
        fun _ => before, .inr (walk.after_eq ▸ .inl rfl), filtered,
        ordered.noWhere.append limited.noWhere, fun settings key again => ?_⟩
      have shows : projection settings.primaryKey _ = .ok _ := key ▸ shows
      have clauses := ClausesOf.clauses named joined again ordered (limited.again settings)
      change StatementOf _ _ _
      simpa only [List.cons_append, List.append_assoc] using
        StatementOf.select select marked listed from_ clauses shows

end Select

theorem Statement.Opening.FormOf.parted {o : Statement.Opening} (h : o.FormOf ctx p d) :
    ∃ before clause rest, p = before ++ (clause ++ rest) ∧ o.Parted ctx before clause rest d := by
  cases o with
  | select => exact Select.StatementOf.parted h
  | insert => exact ⟨p, [], [], by simp, Insert.StatementOf.parted h⟩
  | update => exact Update.StatementOf.parted h
  | delete => exact Delete.StatementOf.parted h
  | procedure => exact ⟨p, [], [], by simp, Procedure.StatementOf.parted h⟩

/-! ### Filters -/

namespace Statement.Opening.Parted

variable {o : Opening} {before clause : List Token}

/-- The clause opens with the keyword in a place where no value is expected. -/
theorem opens_of_isSome (h : o.Parted ctx before clause rest d) (filter : d.filter.isSome = true) :
    ∃ k after, clause = k :: after ∧ k.isKeyword "WHERE" = true ∧
      (k, Place.opening.after before) ∈ places (before ++ (clause ++ rest)) ∧
        (Place.opening.after before).holdsValue = false := by
  have filtered := h.filtered
  generalize d.filter = x at filtered filter
  cases filtered with
  | absent => cases filter
  | @clause k after _ _ opens chain ends =>
    rcases h.starts with empty | starts
    · cases empty
    · refine ⟨k, after, rfl, opens, ?_, starts.free⟩
      rw [places, Place.along_append, List.cons_append, Place.along]
      simp

/-- Without a filter, the keyword stands only where a value is expected. -/
theorem unfiltered_of_eq_none (h : o.Parted ctx before clause rest d) (filter : d.filter = none) :
    clause = [] ∧ Place.opening.Unfiltered (before ++ (clause ++ rest)) := by
  have filtered := h.filtered
  rw [filter] at filtered
  cases filtered with
  | absent => exact ⟨rfl, h.unfiltered.append rfl h.behind.unfiltered⟩

theorem isSome_filter_iff (h : o.Parted ctx before clause rest d) :
    d.filter.isSome = true ↔ ∃ x ∈ places (before ++ (clause ++ rest)),
      x.1.isKeyword "WHERE" = true ∧ x.2.holdsValue = false := by
  constructor
  · intro filter
    obtain ⟨k, _, _, opens, stands, free⟩ := h.opens_of_isSome filter
    exact ⟨_, stands, opens, free⟩
  · rintro ⟨x, listed, opens, free⟩
    cases filter : d.filter with
    | some y => rfl
    | none =>
      rw [(h.unfiltered_of_eq_none filter).2 x listed opens] at free
      cases free

/-- Where values stand only in the clause itself, the keyword is enough for a filter. -/
theorem isSome_filter_iff_of_plain (h : o.Parted ctx before clause rest d)
    (kind : d.kind ∈ [.select, .command, .delete]) :
    d.filter.isSome = true ↔
      ∃ t ∈ before ++ (clause ++ rest), t.isKeyword "WHERE" = true := by
  constructor
  · intro filter
    obtain ⟨k, after, rfl, opens, _⟩ := h.opens_of_isSome filter
    exact ⟨k, by simp, opens⟩
  · rintro ⟨t, listed, opens⟩
    cases filter : d.filter with
    | some y => rfl
    | none =>
      obtain ⟨rfl, _⟩ := h.unfiltered_of_eq_none filter
      rcases List.mem_append.mp listed with listed | listed
      · exact absurd opens (h.plain kind t listed)
      · exact absurd opens (h.behind t listed)

/-- The filter is what is read behind the keyword that opens the clause. -/
theorem exists_of_filter_eq_some (h : o.Parted ctx before clause rest d) {x : Predicate}
    (filter : d.filter = some x) :
    ∃ k after, clause = k :: after ∧ k.isKeyword "WHERE" = true ∧
      (Condition.predicate ctx).run (after ++ rest) = (.ok x, rest) := by
  have filtered := h.filtered
  rw [filter] at filtered
  cases filtered with
  | @clause k after _ conditions opens chain ends =>
    have reads := Condition.reads_predicate.mpr ⟨ends, conditions, chain⟩
    exact ⟨k, after, rfl, opens, Reader.run_eq_ok_iff.mpr ⟨after, rfl, reads⟩⟩

end Statement.Opening.Parted

/-- A statement that compiles has a filter exactly if the keyword WHERE stands in it where no value
is expected, and a selection or a deletion if it stands in it at all. What comes before the clause
takes the keyword at most for a value, what comes behind it not at all, and the clause is what the
filter is read from. -/
theorem filter_of_compile {settings : Settings} {text : String} {params : Params} {d : Descriptor}
    (h : compile settings text params = .ok d) :
    ∃ tokens, Token.tokenize (Statement.normalize text) = .ok tokens ∧
      (d.filter.isSome = true ↔ ∃ x ∈ Statement.places tokens,
        x.1.isKeyword "WHERE" = true ∧ x.2.holdsValue = false) ∧
      (d.kind ∈ [.select, .command, .delete] →
        (d.filter.isSome = true ↔ ∃ t ∈ tokens, t.isKeyword "WHERE" = true)) ∧
      ∀ x, d.filter = some x → ∃ before k clause rest,
        tokens = before ++ k :: (clause ++ rest) ∧ k.isKeyword "WHERE" = true ∧
        Place.opening.Unfiltered before ∧
        (d.kind ∈ [.select, .command, .delete] → NoWhere before) ∧ NoWhere rest ∧
        (Condition.predicate ⟨settings, params⟩).run (clause ++ rest) = (.ok x, rest) := by
  obtain ⟨tokens, o, tokenized, form⟩ := compile_eq_ok_iff.mp h
  obtain ⟨before, clause, rest, rfl, parted⟩ := form.parted
  refine ⟨_, tokenized, parted.isSome_filter_iff, parted.isSome_filter_iff_of_plain,
    fun x filter => ?_⟩
  obtain ⟨k, after, rfl, opens, run⟩ := parted.exists_of_filter_eq_some filter
  exact ⟨before, k, after, rest, rfl, opens, parted.unfiltered, parted.plain, parted.behind, run⟩

theorem filter_of_compile_update :
    compile {} "UPDATE t SET a = where WHERE b = 1" ∅ = .ok {
      kind := .update
      table := "t"
      fields := .ofList [("a", .str "where")]
      filter := some (.comparison "b" .eq (.int 1)) } ∧
    ∃ x ∈ Statement.places [.word "UPDATE", .word "t", .word "SET", .word "a", .symbol "=",
        .word "where", .word "WHERE", .word "b", .symbol "=", .word "1"],
      x.1.isKeyword "WHERE" = true ∧ x.2.holdsValue = false := by
  have compiles : compile {} "UPDATE t SET a = where WHERE b = 1" ∅ = .ok {
      kind := .update
      table := "t"
      fields := .ofList [("a", .str "where")]
      filter := some (.comparison "b" .eq (.int 1)) } := by
    decide +kernel
  have lexed : Token.tokenize (Statement.normalize "UPDATE t SET a = where WHERE b = 1") =
      .ok [.word "UPDATE", .word "t", .word "SET", .word "a", .symbol "=", .word "where",
        .word "WHERE", .word "b", .symbol "=", .word "1"] := by
    decide +kernel
  obtain ⟨tokens, tokenized, stands, _⟩ := filter_of_compile compiles
  obtain rfl := Except.ok.inj (lexed.symm.trans tokenized)
  exact ⟨compiles, stands.mp rfl⟩

/-- An assigned value may be any word, so an assignment takes the keyword for one. -/
theorem not_forall_isSome_filter :
    ¬ ∀ settings text (params : Params) d tokens, compile settings text params = .ok d →
      Token.tokenize (Statement.normalize text) = .ok tokens →
        d.kind ∈ [.update, .delete, .select, .command] →
          (∃ t ∈ tokens, t.isKeyword "WHERE" = true) → d.filter.isSome = true := by
  intro all
  have compiles : compile {} "UPDATE t SET a = WHERE" ∅ = .ok {
      kind := .update
      table := "t"
      fields := .ofList [("a", .str "WHERE")] } := by
    decide +kernel
  have lexed : Token.tokenize (Statement.normalize "UPDATE t SET a = WHERE") =
      .ok [.word "UPDATE", .word "t", .word "SET", .word "a", .symbol "=", .word "WHERE"] := by
    decide +kernel
  have filter := all {} _ ∅ _ _ compiles lexed (by decide) ⟨.word "WHERE", by simp, by decide⟩
  cases filter

end SqlBridge
