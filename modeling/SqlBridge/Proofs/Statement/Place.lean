import SqlBridge.Proofs.Statement.Grammar

/-!
# Where values stand

The tokens before a token tell whether a value is expected in its place: after an operator, in the
row of an insertion, among the arguments of a call, or after LIMIT and OFFSET. Anywhere else a bare
word is a keyword or a name, even if it starts with a colon. In a statement that compiles, every
word in the place of a value gives one.
-/

namespace SqlBridge

/-- The places in a statement, as far as the tokens before them tell. -/
inductive Place where
  /-- The first token. -/
  | opening
  /-- Keywords and names, up to the clauses that hold values. -/
  | clause
  /-- What is inserted into, with its columns. -/
  | columns
  /-- Between the columns and the row of an insertion. -/
  | heading
  /-- The row of an insertion or the arguments of a call. -/
  | row
  /-- The name of a procedure, up to its arguments. -/
  | called
  /-- The field of a condition or of an assignment. -/
  | field
  /-- The operator after a field. -/
  | operator
  /-- The operand after an operator. -/
  | operand
  /-- After a condition or an assignment. -/
  | joined
  /-- The operand of LIMIT or OFFSET. -/
  | count
  /-- After such an operand. -/
  | counted
  /-- After the row or the arguments. -/
  | finished
deriving DecidableEq, Repr

namespace Place

def ofOpening : Statement.Opening → Place
  | .insert => .columns
  | .procedure => .called
  | _ => .clause

def next (s : Place) (t : Token) : Place :=
  match s with
  | .opening =>
    match t with
    | .word text => ((Statement.opening? text).map ofOpening).getD .clause
    | _ => .clause
  | .clause =>
    if t.isKeyword "WHERE" ∨ t.isKeyword "SET" then .field
    else if t.isKeyword "LIMIT" then .count
    else .clause
  | .columns => if t = .rightParen then .heading else .columns
  | .heading => if t = .leftParen then .row else .heading
  | .row => if t = .rightParen then .finished else .row
  | .called => if t = .leftParen then .row else .called
  | .field => if t = .leftParen then .field else .operator
  | .operator => .operand
  | .operand => .joined
  | .joined =>
    if t = .rightParen then .joined
    else if t.isKeyword "LIMIT" then .count
    else if Condition.isBoundary t then .clause
    else .field
  | .count => .counted
  | .counted => if t = .comma ∨ t.isKeyword "OFFSET" then .count else .counted
  | .finished => .finished

/-- Whether a value is expected in the place. -/
def holdsValue : Place → Bool
  | .operand | .row | .count => true
  | _ => false

def after (s : Place) (p : List Token) : Place :=
  p.foldl next s

/-- The tokens with their places, the first one standing in the given place. -/
def along (s : Place) : List Token → List (Token × Place)
  | [] => []
  | t :: p => (t, s) :: (s.next t).along p

theorem along_append (s : Place) (p q : List Token) :
    s.along (p ++ q) = s.along p ++ (s.after p).along q := by
  induction p generalizing s with
  | nil => rfl
  | cons t p ih => rw [List.cons_append, along, along, ih, List.cons_append]; rfl

/-- What holds of tokens in their places holds of the first one and of the others. -/
theorem forall_along_cons {P : Token × Place → Prop} {s s' : Place} {t : Token} {p : List Token}
    (leads : s.next t = s') :
    (∀ x ∈ s.along (t :: p), P x) ↔ P (t, s) ∧ ∀ x ∈ s'.along p, P x := by
  rw [along, leads, List.forall_mem_cons]

theorem forall_along_append {P : Token × Place → Prop} {s s' : Place} {p q : List Token}
    (leads : s.after p = s') :
    (∀ x ∈ s.along (p ++ q), P x) ↔ (∀ x ∈ s.along p, P x) ∧ ∀ x ∈ s'.along q, P x := by
  rw [along_append, leads, List.forall_mem_append]

theorem map_fst_along (s : Place) (p : List Token) : (s.along p).map Prod.fst = p := by
  induction p generalizing s with
  | nil => rfl
  | cons t p ih => rw [along, List.map_cons, ih]

end Place

def Statement.places (tokens : List Token) : List (Token × Place) :=
  Place.opening.along tokens

variable {ctx : Context} {params : Params} {p q rest : List Token} {d : Descriptor}

/-- A keyword is none of the other keywords. -/
theorem Token.not_isKeyword_of_isKeyword {t : Token} {k : String} {others : List String}
    (same : t.isKeyword k = true) (apart : ∀ w ∈ others, Text.upper k ≠ Text.upper w) :
    ∀ w ∈ others, ¬ t.isKeyword w = true :=
  fun w listed other => apart w listed (Token.upper_eq_of_isKeyword same other)

/-! ### Ways through a statement -/

namespace Place

/-- The tokens lead from one place to another, and where a value is expected they give one. -/
inductive Walk (params : Params) : Place → List Token → Place → Prop where
  | nil {s : Place} : Walk params s [] s
  | pass {s s' s'' : Place} {t : Token} {p : List Token}
      (free : s.holdsValue = false ∨ t.isValue = false) (leads : s.next t = s')
      (others : Walk params s' p s'') : Walk params s (t :: p) s''
  | take {s s' s'' : Place} {t : Token} {v : Value} {p : List Token}
      (given : params.ValueOf t v) (leads : s.next t = s')
      (others : Walk params s' p s'') : Walk params s (t :: p) s''

variable {s s' s'' : Place} {t : Token} {k : String}

theorem Walk.append (first : Walk params s p s') (second : Walk params s' q s'') :
    Walk params s (p ++ q) s'' := by
  induction first with
  | nil => exact second
  | pass free leads _ ih => exact .pass free leads (ih second)
  | take given leads _ ih => exact .take given leads (ih second)

theorem Walk.after_eq (h : Walk params s p s') : s.after p = s' := by
  induction h with
  | nil => rfl
  | pass _ leads _ ih => rw [after, List.foldl_cons, leads]; exact ih
  | take _ leads _ ih => rw [after, List.foldl_cons, leads]; exact ih

theorem Walk.given (h : Walk params s p s') :
    ∀ x ∈ s.along p, x.2.holdsValue = true → x.1.isValue = true → ∃ v, params.ValueOf x.1 v := by
  induction h with
  | nil => simp [along]
  | pass free leads _ ih =>
    rw [along, leads]
    refine List.forall_mem_cons.mpr ⟨?_, ih⟩
    intro holds value
    rcases free with free | free <;> simp_all
  | take given leads _ ih =>
    rw [along, leads]
    exact List.forall_mem_cons.mpr ⟨fun _ _ => ⟨_, given⟩, ih⟩

/-- Names and the keywords of other clauses lead nowhere else. -/
theorem clause_next_eq (apart : ∀ k ∈ ["WHERE", "SET", "LIMIT"], ¬ t.isKeyword k = true) :
    clause.next t = .clause := by
  simp only [List.forall_mem_cons, List.not_mem_nil, false_implies, implies_true, and_true] at apart
  obtain ⟨where_, set, limit⟩ := apart
  simp [next, where_, set, limit]

theorem clause_next_of_name? {name : String} (named : t.name? = some name) :
    clause.next t = .clause := by
  have reserved : ∀ k ∈ ["WHERE", "SET", "LIMIT"], k ∈ Token.reservedWords := by decide
  exact clause_next_eq fun k listed => Token.not_isKeyword_of_name? named (reserved k listed)

theorem clause_next_of_isKeyword (same : t.isKeyword k = true)
    (apart : ∀ w ∈ ["WHERE", "SET", "LIMIT"], Text.upper k ≠ Text.upper w) :
    clause.next t = .clause :=
  clause_next_eq (Token.not_isKeyword_of_isKeyword same apart)

theorem Walk.mark (free : s.holdsValue = false) (leads : s.next t = s')
    (others : Walk params s' p s'') : Walk params s (t :: p) s'' :=
  .pass (.inl free) leads others

theorem Walk.name {name : String} (named : t.name? = some name)
    (others : Walk params .clause p s) : Walk params .clause (t :: p) s :=
  .mark rfl (clause_next_of_name? named) others

theorem Walk.keyword (same : t.isKeyword k = true)
    (apart : ∀ w ∈ ["WHERE", "SET", "LIMIT"], Text.upper k ≠ Text.upper w)
    (others : Walk params .clause p s) : Walk params .clause (t :: p) s :=
  .mark rfl (clause_next_of_isKeyword same apart) others

theorem opening_next {o : Statement.Opening} (listed : k ∈ o.keywords)
    (same : t.isKeyword k = true) : opening.next t = ofOpening o := by
  cases t with
  | word text =>
    have found := Statement.opening?_eq_some_iff_isKeyword.mpr ⟨_, listed, same⟩
    simp only [next, found, Option.map_some,
      Option.getD_some]
  | _ => cases same

theorem field_next (apart : t ≠ .leftParen) : field.next t = .operator := by
  rw [next, if_neg apart]

/-- A field, any operator and a value make a condition or an assignment. -/
theorem walk_operand {operator operand : Token} {v : Value} (apart : t ≠ .leftParen)
    (given : params.ValueOf operand v) : Walk params .field [t, operator, operand] .joined :=
  .mark rfl (field_next apart) (.mark rfl rfl (.take given rfl .nil))

theorem columns_next (apart : t ≠ .rightParen) : columns.next t = .columns := by
  rw [next, if_neg apart]

theorem heading_next (apart : t ≠ .leftParen) : heading.next t = .heading := by
  rw [next, if_neg apart]

theorem called_next (apart : t ≠ .leftParen) : called.next t = .called := by
  rw [next, if_neg apart]

theorem row_next (value : t.isValue = true) : row.next t = .row := by
  have apart : t ≠ .rightParen := by
    rintro rfl
    cases value
  rw [next, if_neg apart]

end Place

open Place

/-! ### Lists -/

namespace Reader

variable {α : Type} {s s' : Place}

theorem Items.walk {J : List Token → List Token → α → Prop} {as : List α}
    (items : Items J rest p as) (comma : s'.next .comma = s)
    (each : ∀ {rest p a}, J rest p a → Walk params s p s') : Walk params s p s' := by
  induction items with
  | last only => exact each only
  | more first _ ih => exact (each first).append (.pass (.inr rfl) comma ih)

end Reader

theorem Numbered.walk {α : Type} {s s' : Place} {J : Nat → List Token → α → Prop} {n : Nat}
    {as : List α} (items : Numbered J rest n p as) (comma : s'.next .comma = s)
    (each : ∀ {n p a}, J n p a → Walk params s p s') : Walk params s p s' := by
  induction items with
  | last only => exact each only
  | more first _ ih => exact (each first).append (.pass (.inr rfl) comma ih)

/-! ### Conditions -/

namespace Condition

theorem ConditionOf.walk {x : Predicate} (h : ConditionOf ctx p x) :
    Walk ctx.params .field p .joined := by
  cases h with
  | comparison named _ given => exact walk_operand named.ne_paren.1 given
  | pattern named _ given => exact walk_operand named.ne_paren.1 given

theorem Connects.joined_next {l : Logic} {t : Token} (h : Connects l t) :
    joined.next t = .field := by
  obtain ⟨inside, inner⟩ := h.goes_on
  have unlimited : t.isKeyword "LIMIT" = false := by
    simp only [isBoundary, List.any_cons, Bool.or_eq_false_iff] at inner
    exact inner.2.1
  simp [next, inside, inner, unlimited]

theorem ChainAt.walk {n : Nat} {x : Predicate} {cs : List Predicate} (h : ChainAt ctx n p x cs) :
    Walk ctx.params .field p .joined := by
  induction h using ChainAt.induct (T := fun _ p _ _ => Walk ctx.params .field p .joined)
    (Q := fun _ p _ _ => Walk ctx.params .joined p .joined) with
  | condition single => exact single.walk
  | enclosed _ _ inner => exact .mark rfl rfl (inner.append (.mark rfl rfl .nil))
  | nil => exact .nil
  | cons connects _ term others => exact .mark rfl connects.joined_next (term.append others)
  | fold _ _ first others => exact first.append others

end Condition

/-! ### Clauses -/

/-- A clause may start in the place. -/
def Place.StartsClause (s : Place) : Prop :=
  s = .clause ∨ s = .joined

theorem Place.StartsClause.free {s : Place} (h : s.StartsClause) : s.holdsValue = false := by
  rcases h with rfl | rfl <;> rfl

/-- The keyword leads from every place in which it may stand to a condition. -/
theorem Place.next_where {s : Place} {t : Token} (starts : s.StartsClause)
    (opens : t.isKeyword "WHERE" = true) : s.next t = .field := by
  rcases starts with rfl | rfl
  · simp [next, opens]
  · have apart : ∀ w ∈ ["ORDER", "LIMIT", "GROUP"], ¬ t.isKeyword w = true :=
      Token.not_isKeyword_of_isKeyword opens (by decide)
    have paren := (Token.ne_paren_of_isKeyword opens).2
    simp only [List.forall_mem_cons, List.not_mem_nil, false_implies, implies_true, and_true,
      Bool.not_eq_true] at apart
    simp [next, paren, Condition.isBoundary, apart]

theorem Condition.WhereOf.walk {s : Place} {filter : Option Predicate} (starts : s.StartsClause)
    (h : WhereOf ctx rest p filter) : ∃ s', Walk ctx.params s p s' ∧ s'.StartsClause := by
  cases h with
  | clause opens chain ends =>
    exact ⟨.joined, .mark starts.free (next_where starts opens) chain.walk, .inr rfl⟩
  | absent => exact ⟨s, .nil, starts⟩

theorem AliasOf.walk {o : Option String} (h : AliasOf rest p o) :
    Walk params .clause p .clause := by
  cases h with
  | explicit as named => exact .keyword as (by decide) (.name named .nil)
  | bare named => exact .name (Reader.name?_of_bareAlias? named) .nil
  | absent => exact .nil

theorem TableOf.walk {table : TableRef} (h : TableOf rest p table) :
    Walk params .clause p .clause := by
  cases h with
  | table named renamed => exact .name named renamed.walk

theorem Select.ColumnOf.walk {c : Column} (h : ColumnOf rest p c) :
    Walk params .clause p .clause := by
  cases h with
  | star => exact .mark rfl (clause_next_eq (by decide)) .nil
  | renamed _ named as other => exact .name named (.keyword as (by decide) (.name other .nil))
  | plain _ named => exact .name named .nil

namespace Join

theorem Opens.walk (h : Opens p) : Walk params .clause p .clause := by
  cases h with
  | join join => exact .keyword join (by decide) .nil
  | left left join => exact .keyword left (by decide) (.keyword join (by decide) .nil)
  | leftOuter left outer join =>
    exact .keyword left (by decide)
      (.keyword outer (by decide) (.keyword join (by decide) .nil))

theorem EqualityOf.walk {left right : String} (h : EqualityOf p left right) :
    Walk params .clause p .clause := by
  cases h with
  | bare first second => exact .name first (.mark rfl rfl (.name second .nil))
  | enclosed first second =>
    exact .mark rfl rfl (.name first (.mark rfl rfl (.name second (.mark rfl rfl .nil))))

theorem JoinedOf.walk {outer : TableRef} {stage : Lookup} (h : JoinedOf outer rest p stage) :
    Walk params .clause p .clause := by
  cases h with
  | on table on equality =>
    exact table.walk.append (.keyword on (by decide) equality.walk)

theorem JoinsOf.walk {outer : TableRef} {stages : List Lookup} (h : JoinsOf outer rest p stages) :
    Walk params .clause p .clause := by
  induction h with
  | nil => exact .nil
  | cons opens first _ ih => exact opens.walk.append (first.walk.append ih)

end Join

namespace Ordering

theorem ElementOf.walk {e : OrderElement} (h : ElementOf rest p e) :
    Walk params .clause p .clause := by
  cases h with
  | descending named desc => exact .name named (.keyword desc (by decide) .nil)
  | ascending named asc => exact .name named (.keyword asc (by decide) .nil)
  | plain named => exact .name named .nil

/-- The keyword leads from every place in which it may stand to names. -/
theorem next_order {s : Place} {t : Token} (starts : s.StartsClause)
    (order : t.isKeyword "ORDER" = true) : s.next t = .clause := by
  rcases starts with rfl | rfl
  · exact clause_next_of_isKeyword order (by decide)
  · have paren := (Token.ne_paren_of_isKeyword order).2
    have unlimited : ¬ t.isKeyword "LIMIT" = true := fun limit =>
      absurd (Token.upper_eq_of_isKeyword order limit) (by decide)
    simp [next, paren, unlimited, Condition.isBoundary, order]

theorem OrderByOf.walk {s : Place} {elements : List OrderElement} (starts : s.StartsClause)
    (h : OrderByOf rest p elements) : ∃ s', Walk params s p s' ∧ s'.StartsClause := by
  cases h with
  | clause order by_ items =>
    have listed : Walk params .clause _ .clause := items.walk rfl ElementOf.walk
    exact ⟨.clause, .mark starts.free (next_order starts order) (.keyword by_ (by decide) listed),
      .inl rfl⟩
  | absent => exact ⟨s, .nil, starts⟩

/-- The keyword leads from every place in which it may stand to its operand. -/
theorem next_limit {s : Place} {t : Token} (starts : s.StartsClause)
    (limit : t.isKeyword "LIMIT" = true) : s.next t = .count := by
  rcases starts with rfl | rfl
  · have apart : ∀ w ∈ ["WHERE", "SET"], ¬ t.isKeyword w = true :=
      Token.not_isKeyword_of_isKeyword limit (by decide)
    simp only [List.forall_mem_cons, List.not_mem_nil, false_implies, implies_true, and_true,
      Bool.not_eq_true] at apart
    simp [next, apart, limit]
  · have paren := (Token.ne_paren_of_isKeyword limit).2
    simp [next, paren, limit]

/-- An operand of LIMIT gives a value. -/
theorem valueOf_of_countOf {t : Token} {n : UInt64} (h : ctx.CountOf t n) :
    ∃ v, ctx.params.ValueOf t v := by
  obtain ⟨value, count⟩ := h
  rw [Params.countOf] at count
  cases given : ctx.params.valueOf t with
  | error e => simp [given, bind, Except.bind] at count
  | ok v => exact ⟨v, Params.valueOf_iff.mpr ⟨value, given⟩⟩

theorem LimitOf.walk {s : Place} {o : Option Limit} (starts : s.StartsClause)
    (h : LimitOf ctx rest p o) : ∃ s', Walk ctx.params s p s' := by
  cases h with
  | count limit given =>
    obtain ⟨_, given⟩ := valueOf_of_countOf given
    exact ⟨_, .mark starts.free (next_limit starts limit) (.take given rfl .nil)⟩
  | pair limit first second =>
    obtain ⟨_, first⟩ := valueOf_of_countOf first
    obtain ⟨_, second⟩ := valueOf_of_countOf second
    exact ⟨_, .mark starts.free (next_limit starts limit)
      (.take first rfl (.mark rfl rfl (.take second rfl .nil)))⟩
  | @offset _ _ o _ _ _ limit first offset second =>
    have leads : Place.counted.next o = .count := by simp [next, offset]
    obtain ⟨_, first⟩ := valueOf_of_countOf first
    obtain ⟨_, second⟩ := valueOf_of_countOf second
    exact ⟨_, .mark starts.free (next_limit starts limit)
      (.take first rfl (.mark rfl leads (.take second rfl .nil)))⟩
  | absent => exact ⟨s, .nil⟩

end Ordering

/-! ### Statements -/

theorem Reader.Marked.clause_walk {keyword : String} {found : Bool}
    (h : Marked keyword rest p found)
    (apart : ∀ w ∈ ["WHERE", "SET", "LIMIT"], Text.upper keyword ≠ Text.upper w) :
    Walk params .clause p .clause := by
  cases h with
  | present here => exact .keyword here apart .nil
  | absent => exact .nil

/-- What stands before the WHERE clause of a deletion leads to where a clause may start. -/
theorem Delete.walk_before_where {k j t : Token} {table : String}
    (delete : k.isKeyword "DELETE" = true) (from_ : j.isKeyword "FROM" = true)
    (named : t.name? = some table) : Walk params .opening [k, j, t] .clause :=
  .mark rfl (opening_next (o := .delete) (by decide) delete)
    (.keyword from_ (by decide) (.name named .nil))

theorem Delete.StatementOf.walk (h : StatementOf ctx p d) :
    ∃ s, Walk ctx.params .opening p s := by
  cases h with
  | delete delete from_ named filtered =>
    obtain ⟨s, filter, _⟩ := filtered.walk (.inl rfl)
    exact ⟨s, (walk_before_where delete from_ named).append filter⟩

namespace Update

theorem AssignmentOf.walk {e : String × Value} (h : AssignmentOf params p e) :
    Walk params .field p .joined := by
  cases h with
  | assignment named given => exact walk_operand (Token.ne_paren_of_name? named).1 given

/-- What stands before the assignments of an update leads to the first field. -/
theorem walk_before_assignments {k t j : Token} {table : String}
    (update : k.isKeyword "UPDATE" = true) (named : t.name? = some table)
    (set : j.isKeyword "SET" = true) : Walk params .opening [k, t, j] .field := by
  have first := opening_next (o := .update) (by decide) update
  have leads : Place.clause.next j = .field := by simp [next, set]
  exact .mark rfl first (.name named (.mark rfl leads .nil))

/-- What stands before the WHERE clause of an update leads to where a clause may start. -/
theorem walk_before_where {k t j : Token} {table : String} {es : List (String × Value)}
    (update : k.isKeyword "UPDATE" = true) (named : t.name? = some table)
    (set : j.isKeyword "SET" = true)
    (assigned : Reader.Items (fun _ => AssignmentOf params) rest p es) :
    Walk params .opening (k :: t :: j :: p) .joined := by
  have fields : Walk params .field p .joined := assigned.walk rfl fun h => h.walk
  exact (walk_before_assignments update named set).append fields

theorem StatementOf.walk (h : StatementOf ctx p d) : ∃ s, Walk ctx.params .opening p s := by
  cases h with
  | update update named set assigned filtered =>
    obtain ⟨s, filter, _⟩ := filtered.walk (.inr rfl)
    exact ⟨s, (walk_before_where update named set assigned).append filter⟩

end Update

namespace Insert

theorem NameAt.walk {name : String} (h : NameAt p name) : Walk params .columns p .columns := by
  obtain ⟨t, rfl, named⟩ := h
  exact .mark rfl (columns_next (Token.ne_paren_of_name? named).2) .nil

theorem ValueAt.walk {v : Value} (h : ValueAt params p v) : Walk params .row p .row := by
  obtain ⟨t, rfl, given⟩ := h
  exact .take given (row_next given.isValue) .nil

/-- What stands before the row of an insertion leads to the row. -/
theorem walk_before_row {k j t v : Token} {w : List Token} {ignoring : Bool} {table : String}
    {columns : List String} (insert : k.isKeyword "INSERT" = true)
    (marked : Reader.Marked "IGNORE" [j] w ignoring) (into : j.isKeyword "INTO" = true)
    (named : t.name? = some table) (names : Reader.Items (fun _ => NameAt) rest p columns)
    (values : v.isKeyword "VALUES" = true ∨ v.isKeyword "VALUE" = true) :
    Walk params .opening (k :: (w ++ j :: t :: .leftParen :: (p ++ [.rightParen, v, .leftParen])))
      .row := by
  have first := opening_next (o := .insert) (by decide) insert
  have ignored : Walk params .columns w .columns := by
    cases marked with
    | present here => exact .mark rfl (columns_next (Token.ne_paren_of_isKeyword here).2) .nil
    | absent => exact .nil
  have apart : v ≠ .leftParen := by
    rcases values with values | values <;> exact (Token.ne_paren_of_isKeyword values).1
  have columns : Walk params .columns p .columns := names.walk rfl fun h => h.walk
  have heading : Walk params .columns [.rightParen, v, .leftParen] .row :=
    .mark rfl rfl (.mark rfl (heading_next apart) (.mark rfl rfl .nil))
  exact .mark rfl first (ignored.append
    (.mark rfl (columns_next (Token.ne_paren_of_isKeyword into).2)
      (.mark rfl (columns_next (Token.ne_paren_of_name? named).2)
        (.mark rfl rfl (columns.append heading)))))

theorem StatementOf.walk (h : StatementOf ctx p d) : ∃ s, Walk ctx.params .opening p s := by
  cases h with
  | insert insert ignoring into named columns values row =>
    have before : Walk ctx.params .opening _ .row :=
      walk_before_row insert ignoring into named columns values
    have given : Walk ctx.params .row _ .row := row.walk rfl fun h => h.walk
    have closed : Walk ctx.params .row [.rightParen] .finished := .pass (.inr rfl) rfl .nil
    refine ⟨.finished, ?_⟩
    simpa only [List.cons_append, List.nil_append, List.append_assoc] using
      before.append (given.append closed)

end Insert

namespace Procedure

theorem ArgumentOf.walk {position : Nat} {e : String × Value} (h : ArgumentOf params position p e) :
    Walk params .row p .row := by
  cases h with
  | literal value plain => exact .take (.literal value plain) (row_next value) .nil
  | bound value placeholder found plain =>
    exact .take (.bound value placeholder found plain) (row_next value) .nil

theorem ArgumentsOf.walk {fields : OrderedMap Value} (h : ArgumentsOf ctx rest p fields) :
    ∃ s, Walk ctx.params .called p s ∧ (s = .called ∨ s = .finished) := by
  cases h with
  | nothing => exact ⟨.called, .nil, .inl rfl⟩
  | empty =>
    exact ⟨.finished, .mark rfl rfl (.pass (.inr rfl) rfl .nil), .inr rfl⟩
  | listed items =>
    have given : Walk ctx.params .row _ .row := items.walk rfl fun h => h.walk
    have tail : Walk ctx.params .row [.rightParen] .finished := .pass (.inr rfl) rfl .nil
    exact ⟨.finished, .mark rfl rfl (given.append tail), .inr rfl⟩

theorem Separator.walk {s : Place} (h : Separator p) (passed : s = .called ∨ s = .finished) :
    Walk params s p s := by
  cases h with
  | nothing => exact .nil
  | semicolon => rcases passed with rfl | rfl <;> exact .mark rfl rfl .nil

/-- The keyword and the name of a call lead to its arguments. -/
theorem walk_before_arguments {k t : Token} {keyword name : String} (listed : keyword ∈ keywords)
    (opens : k.isKeyword keyword = true) (named : t.name? = some name) :
    Walk params .opening [k, t] .called :=
  .mark rfl (opening_next (o := .procedure) listed opens)
    (.mark rfl (called_next (Token.ne_paren_of_name? named).1) .nil)

theorem StatementOf.walk (h : StatementOf ctx p d) : ∃ s, Walk ctx.params .opening p s := by
  cases h with
  | call called opens named passed =>
    obtain ⟨s, arguments, _⟩ := passed.walk
    exact ⟨s, (walk_before_arguments (mem_keywords_iff.mpr (.inl called)) opens named).append
      arguments⟩
  | @block _ _ e _ _ _ _ _ opens named passed before closes after =>
    obtain ⟨s, arguments, stays⟩ := passed.walk
    have end_ : Walk ctx.params s [e] s := by
      rcases stays with rfl | rfl
      · exact .mark rfl (called_next (Token.ne_paren_of_isKeyword closes).1) .nil
      · exact .mark rfl rfl .nil
    have tail := (before.walk stays).append (end_.append (after.walk stays))
    exact ⟨s, (walk_before_arguments (by decide) opens named).append (arguments.append tail)⟩

end Procedure

namespace Select

/-- What stands before the WHERE clause of a selection leads to where a clause may start. -/
theorem walk_before_where {k f : Token} {w c t j : List Token} {distinct : Bool}
    {columns : List Column} {table : TableRef} {joins : List Lookup}
    (select : k.isKeyword "SELECT" = true)
    (marked : Reader.Marked "DISTINCT" (c ++ f :: q) w distinct)
    (listed : Reader.Items ColumnOf (f :: q) c columns) (from_ : f.isKeyword "FROM" = true)
    (named : TableOf (j ++ p) t table) (joined : Join.JoinsOf table p j joins) :
    Walk params .opening (k :: (w ++ (c ++ f :: (t ++ j)))) .clause := by
  have first := opening_next (o := .select) (by decide) select
  have columns : Walk params .clause c .clause := listed.walk rfl ColumnOf.walk
  have tables : Walk params .clause (t ++ j) .clause := named.walk.append joined.walk
  exact .mark rfl first ((marked.clause_walk (by decide)).append
    (columns.append (.keyword from_ (by decide) tables)))

/-- What stands before the LIMIT clause of a selection leads to where a clause may start. -/
theorem walk_before_limit {k f : Token} {w c t j o l : List Token} {distinct : Bool}
    {columns : List Column} {table : TableRef} {joins : List Lookup} {filter : Option Predicate}
    {orderBy : List OrderElement} (select : k.isKeyword "SELECT" = true)
    (marked : Reader.Marked "DISTINCT" (c ++ f :: q) w distinct)
    (listed : Reader.Items ColumnOf (f :: q) c columns) (from_ : f.isKeyword "FROM" = true)
    (named : TableOf (j ++ (p ++ (o ++ l))) t table)
    (joined : Join.JoinsOf table (p ++ (o ++ l)) j joins)
    (filtered : Condition.WhereOf ctx (o ++ l) p filter)
    (ordered : Ordering.OrderByOf l o orderBy) :
    ∃ s, Walk ctx.params .opening (k :: (w ++ (c ++ f :: (t ++ (j ++ (p ++ o)))))) s ∧
      s.StartsClause := by
  have before : Walk ctx.params .opening _ .clause :=
    walk_before_where select marked listed from_ named joined
  obtain ⟨_, filter, starts⟩ := filtered.walk (.inl rfl)
  obtain ⟨s, order, starts⟩ := ordered.walk starts
  refine ⟨s, ?_, starts⟩
  simpa only [List.cons_append, List.append_assoc] using before.append (filter.append order)

theorem StatementOf.walk (h : StatementOf ctx p d) : ∃ s, Walk ctx.params .opening p s := by
  cases h with
  | select select marked listed from_ clauses =>
    cases clauses with
    | clauses named joined filtered ordered limited =>
      obtain ⟨_, before, starts⟩ :=
        walk_before_limit select marked listed from_ named joined filtered ordered
      obtain ⟨s, limit⟩ := limited.walk starts
      refine ⟨s, ?_⟩
      simpa only [List.cons_append, List.append_assoc] using before.append limit

end Select

theorem Statement.Opening.FormOf.walk {o : Statement.Opening} (h : o.FormOf ctx p d) :
    ∃ s, Walk ctx.params .opening p s := by
  cases o with
  | select => exact Select.StatementOf.walk h
  | insert => exact Insert.StatementOf.walk h
  | update => exact Update.StatementOf.walk h
  | delete => exact Delete.StatementOf.walk h
  | procedure => exact Procedure.StatementOf.walk h

/-! ### Placeholders -/

/-- In a statement that compiles, every placeholder that stands in the place of a value is bound. -/
theorem placeholder_bound_of_compile {settings : Settings} {text : String}
    (h : compile settings text params = .ok d) :
    ∃ tokens, Token.tokenize (Statement.normalize text) = .ok tokens ∧
      ∀ word name s, (.word word, s) ∈ Statement.places tokens → s.holdsValue = true →
        Literal.placeholder? word = some name →
          ∃ v, params.get? name = some v ∧ v.isPlaceholder = false := by
  obtain ⟨tokens, o, tokenized, form⟩ := compile_eq_ok_iff.mp h
  refine ⟨tokens, tokenized, fun word name s stands holds placeholder => ?_⟩
  obtain ⟨_, walk⟩ := form.walk
  obtain ⟨v, given⟩ := walk.given _ stands holds rfl
  have literal : (Token.word word).literal = .placeholder name := by
    simp [Token.literal, Literal.ofWord, placeholder]
  cases given with
  | literal _ plain =>
    rw [literal] at plain
    cases plain
  | bound _ same found plain =>
    obtain rfl := Value.placeholder.inj (literal.symm.trans same)
    exact ⟨v, found, plain⟩

theorem placeholder_bound_in_row :
    (.word ":p", .row) ∈ Statement.places [.word "INSERT", .word "INTO", .word ":t", .leftParen,
        .word ":c", .rightParen, .word "VALUES", .leftParen, .word ":p", .rightParen] ∧
      ∃ v, OrderedMap.get? (.ofList [("p", Value.int 1)]) "p" = some v ∧
        v.isPlaceholder = false := by
  have compiles : compile {} "INSERT INTO :t (:c) VALUES (:p)" (.ofList [("p", .int 1)]) = .ok {
      kind := .insert
      table := ":t"
      fields := .ofList [(":c", .int 1)] } := by
    decide +kernel
  have lexed : Token.tokenize (Statement.normalize "INSERT INTO :t (:c) VALUES (:p)") = .ok
      [.word "INSERT", .word "INTO", .word ":t", .leftParen, .word ":c", .rightParen,
        .word "VALUES", .leftParen, .word ":p", .rightParen] := by
    decide +kernel
  obtain ⟨tokens, tokenized, bound⟩ := placeholder_bound_of_compile compiles
  obtain rfl := Except.ok.inj (lexed.symm.trans tokenized)
  have stands : (.word ":p", .row) ∈ Statement.places [.word "INSERT", .word "INTO", .word ":t",
      .leftParen, .word ":c", .rightParen, .word "VALUES", .leftParen, .word ":p",
      .rightParen] := by
    decide +kernel
  exact ⟨stands, bound ":p" "p" .row stands rfl (by decide)⟩

/-- Where a name is expected, a placeholder is taken for the name and needs no parameter. -/
theorem placeholder_unbound_in_name :
    ¬ ∀ settings text (params : Params) d tokens, compile settings text params = .ok d →
      Token.tokenize (Statement.normalize text) = .ok tokens →
        ∀ word name, .word word ∈ tokens → Literal.placeholder? word = some name →
          ∃ v, params.get? name = some v ∧ v.isPlaceholder = false := by
  intro bound
  have compiles : compile {} "DELETE FROM :t" ∅ = .ok { kind := .delete, table := ":t" } := by
    decide +kernel
  have lexed : Token.tokenize (Statement.normalize "DELETE FROM :t") =
      .ok [.word "DELETE", .word "FROM", .word ":t"] := by
    decide +kernel
  obtain ⟨v, found, _⟩ := bound {} _ ∅ _ _ compiles lexed ":t" "t" (by simp) (by decide)
  cases found

end SqlBridge
