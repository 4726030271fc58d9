import SqlBridge.Proofs.Statement.Parallel

/-!
# What two compilations agree on

Each reader comes to the same outcome for two statements whose tokens are paired, clause by clause.
The settings show in two places only: in the patterns of a filter and in the key that a projection
excludes.
-/

namespace SqlBridge

open Place Pairing

variable {P : Pairing} {ctx ctx' : Context} {s : Place} {t : Token} {k : String}

/-! ### Clauses of names -/

theorem passes_alias? : P.Passes .clause .alias? .clause := by
  rw [Reader.alias?]
  refine .eatKeyword_bind rfl (fun t as => ?_) ?_
  · rw [clause_next_of_isKeyword as (by decide)]
    exact .name_bind rfl fun named => .pure ⟨rfl, clause_next_of_name? named⟩
  · refine .peek_bind rfl (.ok ⟨rfl, rfl⟩ .nil) fun {t ts us} aligned others => ?_
    cases named : Reader.bareAlias? t with
    | none => 
      simp only [Option.bind_some, named]
      exact .ok ⟨rfl, rfl⟩ aligned
    | some a =>
      simp only [Option.bind_some, named]
      exact .ok ⟨rfl, clause_next_of_name? (Reader.name?_of_bareAlias? named)⟩ others

theorem TableRef.passes_reader : P.Passes .clause TableRef.reader .clause := by
  refine .name_bind rfl fun named => ?_
  rw [clause_next_of_name? named]
  exact passes_alias?.bind fun _ => .pure ⟨rfl, rfl⟩

namespace Select

theorem passes_column : P.Passes .clause column .clause := by
  refine .peek_bind rfl (.error (.inl rfl)) fun {t ts us} aligned others => ?_
  by_cases star : t = .word "*"
  · subst star
    exact .ok ⟨rfl, clause_next_eq (by decide)⟩ others
  · have other : some t ≠ some (.word "*") := fun h => star (Option.some.inj h)
    simp only [if_neg other]
    refine Agree.outcome (.name_bind rfl fun named => ?_) aligned
    rw [clause_next_of_name? named]
    refine .eatKeyword_bind rfl (fun t as => ?_) (.pure ⟨rfl, rfl⟩)
    rw [clause_next_of_isKeyword as (by decide)]
    exact .name_bind rfl fun named => .pure ⟨rfl, clause_next_of_name? named⟩

theorem passes_columns : P.Passes .clause columns .clause := by
  refine .peek_bind rfl (.error (.inl rfl)) fun {t ts us} aligned others => ?_
  have listed : P.Passes .clause (.list column) .clause := .list rfl passes_column
  by_cases from_ : t.isKeyword "FROM" = true
  · simp only [Option.all_some, from_, if_true]
    exact .error (.inl rfl)
  · simp only [Option.all_some, from_, if_false, Bool.false_eq_true]
    exact listed.outcome aligned

end Select

namespace Join

variable {outer : TableRef}

theorem passes_afterJoin : P.Passes .clause (joinReader.afterJoin outer) .clause := by
  refine TableRef.passes_reader.bind fun joined => .expectKeyword_bind rfl fun t on => ?_
  rw [clause_next_of_isKeyword on (by decide)]
  have equality (inParentheses : Bool) : P.Passes .clause (do
      let left ← Reader.name
      if (← Reader.next) ≠ some (.symbol "=") then
        Reader.fail (.malformedClause (.joinNotEquality joined.name))
      let right ← Reader.name
      if inParentheses then Reader.expect .rightParen
      Reader.ofExcept (lookup outer joined left right)) .clause := by
    refine .name_bind rfl fun named => ?_
    rw [clause_next_of_name? named]
    refine .next_guard rfl (.name_bind rfl fun named => ?_)
    rw [show clause.next (.symbol "=") = .clause from rfl, clause_next_of_name? named]
    cases inParentheses with
    | true => exact .expect_bind rfl (.ofExcept fun _ => ⟨rfl, rfl⟩)
    | false => exact .ofExcept fun _ => ⟨rfl, rfl⟩
  exact .eat_bind rfl (equality true) (equality false)

theorem leads_of_start? {j : Start} (on : start? t = .ok (some j)) : clause.next t = .clause := by
  cases j with
  | left => exact clause_next_of_isKeyword (start?_eq_left_iff.mp on) (by decide)
  | join => exact clause_next_of_isKeyword (start?_eq_join_iff.mp on) (by decide)

theorem passes_joinReader {j : Start} : P.Passes .clause (joinReader outer j) .clause := by
  cases j with
  | join => exact passes_afterJoin
  | left =>
    have tail : P.Passes .clause (do
        Reader.expectKeyword "JOIN"
        joinReader.afterJoin outer) .clause := by
      refine .expectKeyword_bind rfl fun t join => ?_
      rw [clause_next_of_isKeyword join (by decide)]
      exact passes_afterJoin
    exact .mark_bind rfl (fun outer => clause_next_of_isKeyword outer (by decide)) fun _ => tail

theorem passes_joins : P.Passes .clause (joins outer) .clause := by
  refine .loop (fun holds => absurd holds (by decide)) leads_of_start? (fun j same => ?_) rfl
  subst same
  exact passes_joinReader.bind fun _ => .pure ⟨rfl, rfl⟩

end Join

namespace Ordering

theorem passes_element : P.Passes .clause element .clause := by
  refine .name_bind rfl fun named => ?_
  rw [clause_next_of_name? named]
  refine .eatKeyword_bind rfl (fun t desc => ?_) (.eatKeyword_bind rfl (fun t asc => ?_) ?_)
  · exact .pure ⟨rfl, clause_next_of_isKeyword desc (by decide)⟩
  · exact .pure ⟨rfl, clause_next_of_isKeyword asc (by decide)⟩
  · exact .pure ⟨rfl, rfl⟩

theorem agree_orderBy (starts : s.StartsClause) :
    P.Agree s orderBy orderBy fun a b e => a = b ∧ e.StartsClause := by
  refine .eatKeyword_bind starts.free (fun t order => ?_) (.pure ⟨rfl, starts⟩)
  rw [next_order starts order]
  refine .expectKeyword_bind rfl fun t by_ => ?_
  rw [clause_next_of_isKeyword by_ (by decide)]
  refine Agree.mono (Passes.list rfl passes_element) ?_
  rintro _ _ _ ⟨rfl, rfl⟩
  exact ⟨rfl, .inl rfl⟩

end Ordering

/-! ### Values -/

namespace Pairing

theorem Fits.countOf (fits : P.Fits ctx ctx') {t u : Token} (paired : P.Paired t u) :
    ctx'.params.countOf u = ctx.params.countOf t := by
  rw [Params.countOf, Params.countOf, fits.valueOf paired]

/-- A value is looked up with the same outcome on both sides. -/
theorem Fits.agree_value (fits : P.Fits ctx ctx') :
    P.Agree s ctx.value ctx'.value fun v w e =>
      v = w ∧ ∃ t, t.isValue = true ∧ e = s.next t := by
  refine .value_bind fun paired value => ?_
  rw [fits.valueOf paired]
  exact .ofExcept fun _ => ⟨rfl, _, value, rfl⟩

theorem Fits.agree_count (fits : P.Fits ctx ctx') :
    P.Agree .count ctx.count ctx'.count fun v w e => v = w ∧ e = .counted := by
  refine .value_bind fun paired value => ?_
  rw [fits.countOf paired]
  exact .ofExcept fun _ => ⟨rfl, rfl⟩

end Pairing

/-! ### Conditions -/

namespace Condition

/-- The predicates are the same but for what the settings say about case, and a clause may end. -/
def SameCondition (ctx' : Context) (x y : Predicate) (e : Place) : Prop :=
  y = x.withCase ctx'.settings.caseInsensitiveLike ∧ e = .joined

def recased (ctx : Context) (terms : List (Logic × Predicate)) : List (Logic × Predicate) :=
  terms.map (Prod.map id (Predicate.withCase ctx.settings.caseInsensitiveLike))

theorem agree_afterField (fits : P.Fits ctx ctx') {field : String} :
    P.Agree .operator (afterField ctx field) (afterField ctx' field) (SameCondition ctx') := by
  have value {f f' : Value → Reader Predicate}
      (next : ∀ v, P.Agree .joined (f v) (f' v) (SameCondition ctx')) :
      P.Agree .operand (ctx.value >>= f) (ctx'.value >>= f') (SameCondition ctx') := by
    refine .bind fits.agree_value ?_
    rintro v _ _ ⟨rfl, _, _, rfl⟩
    exact next v
  refine .next_bind rfl (.error (.inl rfl)) fun t => ?_
  cases t with
  | symbol text =>
    dsimp only
    cases Operator.ofSymbol? text with
    | none => exact .fail
    | some o => exact value fun v => .pure ⟨(Predicate.withCase_comparison ..).symm, rfl⟩
  | _ =>
    refine .ite (fun _ => value fun v => ?_) fun _ => .fail
    cases pattern? v with
    | none => exact .fail
    | some text => exact .pure ⟨(Predicate.withCase_pattern ..).symm, rfl⟩

theorem agree_condition (fits : P.Fits ctx ctx') :
    P.Agree .operator (condition ctx (some t)) (condition ctx' (some t)) (SameCondition ctx') := by
  rw [condition, condition]
  cases field? t with
  | none => exact .fail
  | some field => exact agree_afterField fits

theorem leads_of_afterTerm {l : Logic} (on : afterTerm t = .ok (some l)) :
    joined.next t = .field :=
  (afterTerm_eq_some_iff.mp on).joined_next

theorem agree_chain {r r' : Reader Predicate} (term : P.Agree .field r r' (SameCondition ctx')) :
    P.Agree .field (chain r) (chain r') (SameCondition ctx') := by
  refine .bind term ?_
  rintro x _ _ ⟨rfl, rfl⟩
  have terms : P.Agree .joined
      (.loop afterTerm (fun before l => do return before ++ [(l, ← r)]) [])
      (.loop afterTerm (fun before l => do return before ++ [(l, ← r')]) [])
      fun terms terms' e => terms' = recased ctx' terms ∧ e = .joined := by
    refine .loop (fun holds => absurd holds (by decide)) leads_of_afterTerm
      (fun {before _} l same => .bind term ?_) rfl
    rintro y _ _ ⟨rfl, rfl⟩
    refine .pure ⟨?_, rfl⟩
    rw [same, recased, recased, List.map_append]
    rfl
  refine .bind terms ?_
  rintro terms _ _ ⟨rfl, rfl⟩
  exact .pure ⟨Predicate.ofChain_withCase x terms, rfl⟩

theorem agree_term (fits : P.Fits ctx ctx') : ∀ room,
    P.Agree .field (term ctx room) (term ctx' room) (SameCondition ctx')
  | 0 => by
    rw [term, term, fits.depth]
    refine .next_bind rfl (.error (.inl rfl)) fun t => ?_
    cases t with
    | leftParen => exact .fail
    | _ => exact agree_condition fits
  | room + 1 => by
    rw [term, term]
    refine .next_bind rfl (.error (.inl rfl)) fun t => ?_
    cases t with
    | leftParen =>
      refine .at?_bind rfl fun empty => .ite (fun _ => .fail) fun _ => ?_
      refine .bind (agree_chain (agree_term fits room)) ?_
      rintro x _ _ ⟨rfl, rfl⟩
      exact .eat_bind rfl (.pure ⟨rfl, rfl⟩) .fail
    | _ => exact agree_condition fits

theorem agree_predicate (fits : P.Fits ctx ctx') :
    P.Agree .field (predicate ctx) (predicate ctx') (SameCondition ctx') := by
  rw [predicate, predicate, fits.depth]
  refine .bind (agree_chain (agree_term fits _)) ?_
  rintro x _ _ ⟨rfl, rfl⟩
  exact .at?_bind rfl fun _ => .ite (fun _ => .fail) fun _ => .pure ⟨rfl, rfl⟩

theorem agree_whereClause? (fits : P.Fits ctx ctx') (starts : s.StartsClause) :
    P.Agree s (whereClause? ctx) (whereClause? ctx') fun o o' e =>
      o' = o.map (Predicate.withCase ctx'.settings.caseInsensitiveLike) ∧ e.StartsClause := by
  refine .eatKeyword_bind starts.free (fun t opens => ?_) (.pure ⟨rfl, starts⟩)
  rw [next_where starts opens]
  refine .bind (agree_predicate fits) ?_
  rintro x _ _ ⟨rfl, rfl⟩
  exact .pure ⟨rfl, .inr rfl⟩

end Condition

theorem Ordering.agree_limit? (fits : P.Fits ctx ctx') (starts : s.StartsClause) :
    P.Agree s (limit? ctx) (limit? ctx') fun o o' _ => o' = o := by
  have count {f f' : UInt64 → Reader (Option Limit)}
      (next : ∀ n, P.Agree .counted (f n) (f' n) fun o o' _ => o' = o) :
      P.Agree .count (ctx.count >>= f) (ctx'.count >>= f') fun o o' _ => o' = o := by
    refine .bind fits.agree_count ?_
    rintro n _ _ ⟨rfl, rfl⟩
    exact next n
  refine .eatKeyword_bind starts.free (fun t limit => ?_) (.pure rfl)
  rw [next_limit starts limit]
  refine count fun first => .eat_bind rfl (count fun second => .pure rfl) ?_
  refine .eatKeyword_bind rfl (fun t offset => ?_) (.pure rfl)
  have leads : Place.counted.next t = .count := by simp [next, offset]
  rw [leads]
  exact count fun second => .pure rfl

/-! ### Statements -/

/-- The descriptors are the same but for what the settings decide. -/
def SameDescriptor (ctx' : Context) (d d' : Descriptor) (_ : Place) : Prop :=
  d' = d.under ctx'.settings

theorem Delete.agree_statement (fits : P.Fits ctx ctx') :
    P.Agree .opening (statement ctx) (statement ctx') (SameDescriptor ctx') := by
  refine .expectKeyword_bind rfl fun t delete => ?_
  have first : opening.next t = .clause := opening_next (o := .delete) (by decide) delete
  rw [first]
  refine .expectKeyword_bind rfl fun t from_ => ?_
  rw [clause_next_of_isKeyword from_ (by decide)]
  refine .name_bind rfl fun named => ?_
  rw [clause_next_of_name? named]
  refine .bind (Condition.agree_whereClause? fits (.inl rfl)) ?_
  rintro filter _ _ ⟨rfl, _⟩
  exact .finish_bind (.pure rfl)

namespace Update

theorem agree_assignment (fits : P.Fits ctx ctx') {fields fields' : OrderedMap Value}
    (same : fields = fields') :
    P.Agree .field (assignment ctx fields) (assignment ctx' fields') fun m m' e =>
      m = m' ∧ e = .joined := by
  subst same
  refine .name_bind rfl fun named => ?_
  rw [field_next (Token.ne_paren_of_name? named).1]
  refine .next_guard rfl (.bind fits.agree_value ?_)
  rintro v _ _ ⟨rfl, _, _, rfl⟩
  exact .ite (fun _ => .fail_bind) fun _ => .pure ⟨rfl, rfl⟩

theorem agree_statement (fits : P.Fits ctx ctx') :
    P.Agree .opening (statement ctx) (statement ctx') (SameDescriptor ctx') := by
  refine .expectKeyword_bind rfl fun t update => ?_
  have first : opening.next t = .clause := opening_next (o := .update) (by decide) update
  rw [first]
  refine .name_bind rfl fun named => ?_
  rw [clause_next_of_name? named]
  refine .expectKeyword_bind rfl fun t set => ?_
  have leads : Place.clause.next t = .field := by simp [next, set]
  rw [leads]
  have assigned : P.Agree .field (.separated (assignment ctx) ∅) (.separated (assignment ctx') ∅)
      fun m m' e => m = m' ∧ e = .joined := by
    refine .separated ?_ (agree_assignment fits) rfl
    rfl
  refine .bind assigned ?_
  rintro fields _ _ ⟨rfl, rfl⟩
  refine .bind (Condition.agree_whereClause? fits (.inr rfl)) ?_
  rintro filter _ _ ⟨rfl, _⟩
  exact .finish_bind (.pure rfl)

end Update

namespace Insert

variable {s' : Place}

theorem agree_inParentheses {α β : Type} {item : Reader α} {item' : Reader β} {R : α → β → Prop}
    (opens : s.next .leftParen = s') (comma : s'.next .comma = s')
    (each : P.Agree s' item item' fun a b e => R a b ∧ e = s') :
    P.Agree s (inParentheses item) (inParentheses item') fun as bs e =>
      List.Forall₂ R as bs ∧ e = s'.next .rightParen := by
  refine .expect_bind rfl ?_
  rw [opens]
  refine .at?_bind rfl fun _ => .ite (fun _ => .fail_bind) fun _ => .bind (.list comma each) ?_
  rintro as bs _ ⟨related, rfl⟩
  exact .expect_bind rfl (.pure ⟨related, rfl⟩)

theorem passes_names : P.Passes .columns (inParentheses .name) .heading := by
  have each : P.Passes .columns .name .columns := by
    rw [← bind_pure Reader.name]
    exact .name_bind rfl fun named => .pure ⟨rfl, columns_next (Token.ne_paren_of_name? named).2⟩
  refine Agree.mono (agree_inParentheses rfl rfl each) ?_
  rintro names _ _ ⟨same, rfl⟩
  exact ⟨List.forall₂_eq_eq_eq ▸ same, rfl⟩

theorem agree_row : P.Agree .heading (inParentheses .value) (inParentheses .value)
    fun row row' e => List.Forall₂ P.Paired row row' ∧ e = .finished := by
  refine agree_inParentheses rfl rfl ?_
  rw [← bind_pure Reader.value]
  exact .value_bind fun paired value => .pure ⟨paired, row_next value⟩

theorem assign_eq (fits : P.Fits ctx ctx') {columns : List String} {row row' : List Token}
    (paired : List.Forall₂ P.Paired row row') : ∀ m : OrderedMap Value,
    assign ctx'.params m (columns.zip row') = assign ctx.params m (columns.zip row) := by
  induction paired generalizing columns with
  | nil =>
    intro m
    cases columns <;> rfl
  | @cons t u row row' first _ ih =>
    intro m
    cases columns with
    | nil => rfl
    | cons column columns =>
      rw [List.zip_cons_cons, List.zip_cons_cons, assign, assign, fits.valueOf first]
      simp only [ih]

theorem pair_eq (fits : P.Fits ctx ctx') {columns : List String} {row row' : List Token}
    (paired : List.Forall₂ P.Paired row row') :
    pair ctx'.params columns row' = pair ctx.params columns row := by
  rw [pair, pair, paired.length_eq, assign_eq fits paired]

theorem agree_statement (fits : P.Fits ctx ctx') :
    P.Agree .opening (statement ctx) (statement ctx') (SameDescriptor ctx') := by
  refine .expectKeyword_bind rfl fun t insert => ?_
  have first : opening.next t = .columns := opening_next (o := .insert) (by decide) insert
  rw [first]
  have stays {t : Token} {k : String} (same : t.isKeyword k = true) :
      columns.next t = .columns := columns_next (Token.ne_paren_of_isKeyword same).2
  refine .mark_bind rfl stays fun ignoring => .expectKeyword_bind rfl fun t into => ?_
  rw [stays into]
  refine .name_bind rfl fun {_ table} named => ?_
  rw [columns_next (Token.ne_paren_of_name? named).2]
  refine passes_names.bind fun names => ?_
  have tail : P.Agree .heading
      (do
        let row ← inParentheses Reader.value
        Reader.finish
        let fields ← Reader.ofExcept (pair ctx.params names row)
        return ({ kind := .insert, table, fields, ignoreOnConflict := ignoring } : Descriptor))
      (do
        let row ← inParentheses Reader.value
        Reader.finish
        let fields ← Reader.ofExcept (pair ctx'.params names row)
        return ({ kind := .insert, table, fields, ignoreOnConflict := ignoring } : Descriptor))
      (SameDescriptor ctx') := by
    refine .bind agree_row ?_
    rintro row row' _ ⟨paired, rfl⟩
    rw [pair_eq fits paired]
    have fields : P.Passes .finished (.ofExcept (pair ctx.params names row)) .finished :=
      .ofExcept fun _ => ⟨rfl, rfl⟩
    exact .finish_bind (fields.bind fun _ => .pure rfl)
  have apart {t : Token} {k : String} (same : t.isKeyword k = true) :
      heading.next t = .heading := heading_next (Token.ne_paren_of_isKeyword same).1
  refine .mark_bind rfl apart fun _ => .ite (fun _ => tail) fun _ => ?_
  exact .mark_bind rfl apart fun _ => .ite (fun _ => tail) fun _ => .fail_bind

end Insert

namespace Select

theorem agree_projection {columns : List Column} :
    P.Agree s (.ofExcept (projection ctx.settings.primaryKey columns))
      (.ofExcept (projection ctx'.settings.primaryKey columns)) fun p p' _ =>
        p'.included = p.included.excluding ctx'.settings.primaryKey ∧ p'.aliases = p.aliases := by
  rw [projection_excluding ctx.settings.primaryKey ctx'.settings.primaryKey]
  cases projection ctx.settings.primaryKey columns with
  | error e => exact .fail
  | ok p => exact .pure ⟨rfl, rfl⟩

theorem agree_statement (fits : P.Fits ctx ctx') :
    P.Agree .opening (statement ctx) (statement ctx') (SameDescriptor ctx') := by
  refine .expectKeyword_bind rfl fun t select => ?_
  have first : opening.next t = .clause := opening_next (o := .select) (by decide) select
  rw [first]
  refine .mark_bind rfl (fun distinct => clause_next_of_isKeyword distinct (by decide))
    fun distinct => passes_columns.bind fun columns => .expectKeyword_bind rfl fun t from_ => ?_
  rw [clause_next_of_isKeyword from_ (by decide)]
  refine TableRef.passes_reader.bind fun table => Join.passes_joins.bind fun joins => ?_
  refine .bind (Condition.agree_whereClause? fits (.inl rfl)) ?_
  rintro filter _ _ ⟨rfl, starts⟩
  refine .bind (Ordering.agree_orderBy starts) ?_
  rintro orderBy _ _ ⟨rfl, starts⟩
  refine .bind (Ordering.agree_limit? fits starts) ?_
  rintro limit _ _ rfl
  refine .finish_bind (.bind agree_projection ?_)
  rintro p ⟨_, _⟩ _ ⟨rfl, rfl⟩
  exact .pure rfl

end Select

/-! ### Procedure calls -/

namespace Procedure

/-- A placeholder that is passed gives the argument its name, so no token may be swapped. -/
theorem agree_argument (fits : P.Fits ctx ctx') (firm : ¬ P.Loose) {m m' : OrderedMap Value}
    (same : m = m') :
    P.Agree .row (argument ctx m) (argument ctx' m') fun m m' e => m = m' ∧ e = .row := by
  subst same
  refine .value_bind fun {t u} paired value => ?_
  have same : t = u := by
    rcases paired with ⟨_, same⟩ | swaps
    · exact same
    · exact absurd ⟨_, _, swaps⟩ firm
  subst same
  have given : argumentOf ctx'.params (m.entries.length + 1) t =
      argumentOf ctx.params (m.entries.length + 1) t := by
    have looked := fits.valueOf paired
    rw [Params.valueOf, Params.valueOf] at looked
    rw [argumentOf, argumentOf]
    cases literal : t.literal with
    | placeholder name => rw [literal] at looked; simp only [looked]
    | _ => rfl
  rw [given, row_next value]
  have found : P.Passes .row (.ofExcept (argumentOf ctx.params (m.entries.length + 1) t)) .row :=
    .ofExcept fun _ => ⟨rfl, rfl⟩
  exact found.bind fun e => .ite (fun _ => .fail_bind) fun _ => .pure ⟨rfl, rfl⟩

theorem agree_arguments (fits : P.Fits ctx ctx') (firm : ¬ P.Loose) :
    P.Agree .called (arguments ctx) (arguments ctx') fun m m' e =>
      m = m' ∧ (e = .called ∨ e = .finished) := by
  refine .eat_bind rfl ?_ (.pure ⟨rfl, .inl rfl⟩)
  refine .eat_bind rfl (.pure ⟨rfl, .inr rfl⟩) ?_
  have passed : P.Agree .row (.separated (argument ctx) ∅) (.separated (argument ctx') ∅)
      fun m m' e => m = m' ∧ e = .row := by
    refine .separated ?_ (agree_argument fits firm) rfl
    rfl
  refine .bind passed ?_
  rintro m _ _ ⟨rfl, rfl⟩
  exact .expect_bind rfl (.pure ⟨rfl, .inr rfl⟩)

theorem passes_startKeyword : P.Passes .opening startKeyword .called := by
  refine .peek_bind rfl (.error (.inl rfl)) fun {t ts us} aligned others => ?_
  by_cases opens : (keywords.any fun k => t.isKeyword k) = true
  · obtain ⟨k, listed, same⟩ := List.any_eq_true.mp opens
    dsimp only
    rw [if_pos opens]
    exact .ok ⟨rfl, opening_next (o := .procedure) listed same⟩ others
  · dsimp only
    rw [if_neg opens]
    exact .error (.inl rfl)

theorem agree_statement (fits : P.Fits ctx ctx') (firm : ¬ P.Loose) :
    P.Agree .opening (statement ctx) (statement ctx') (SameDescriptor ctx') := by
  refine .atKeyword_bind rfl fun block => passes_startKeyword.bind fun _ => ?_
  refine .name_bind rfl fun {_ name} named => ?_
  rw [called_next (Token.ne_paren_of_name? named).1]
  refine .bind (agree_arguments fits firm) ?_
  rintro fields _ e ⟨rfl, passed⟩
  have tail : P.Agree e
      (do
        Reader.finish
        return ({ kind := .procedure, fields, procedureName := some name } : Descriptor))
      (do
        Reader.finish
        return ({ kind := .procedure, fields, procedureName := some name } : Descriptor))
      (SameDescriptor ctx') := .finish_bind (.pure rfl)
  have free : e.holdsValue = false := by rcases passed with rfl | rfl <;> rfl
  have semicolon : e.next .semicolon = e := by rcases passed with rfl | rfl <;> rfl
  have ends {t : Token} (end_ : t.isKeyword "END" = true) : e.next t = e := by
    rcases passed with rfl | rfl
    · exact called_next (Token.ne_paren_of_isKeyword end_).1
    · rfl
  have separator {f f' : Reader Descriptor} (next : P.Agree e f f' (SameDescriptor ctx')) :
      P.Agree e (.eat .semicolon >>= fun _ => f) (.eat .semicolon >>= fun _ => f')
        (SameDescriptor ctx') := by
    refine .eat_bind rfl ?_ next
    rw [semicolon]
    exact next
  cases block with
  | false => exact tail
  | true =>
    refine separator (.expectKeyword_bind free fun t end_ => ?_)
    rw [ends end_]
    exact separator tail

end Procedure

namespace Statement

/-- What a statement opens with decides how it is read. -/
theorem agree_readerOf (fits : P.Fits ctx ctx') {o : Opening} (firm : o = .procedure → ¬ P.Loose) :
    P.Agree .opening (readerOf ctx o) (readerOf ctx' o) (SameDescriptor ctx') := by
  cases o with
  | select => exact Select.agree_statement fits
  | insert => exact Insert.agree_statement fits
  | update => exact Update.agree_statement fits
  | delete => exact Delete.agree_statement fits
  | procedure => exact Procedure.agree_statement fits (firm rfl)

/-- Paired statements both fail, for the same reason unless tokens may differ, or they have
descriptors that differ in what the settings decide. -/
theorem ofTokens_agree (fits : P.Fits ctx ctx') {ts us : List Token}
    (aligned : P.Aligned .opening ts us)
    (firm : ∀ text, ts.head? = some (.word text) → opening? text = some .procedure → ¬ P.Loose) :
    ofTokens ctx' us = (ofTokens ctx ts).map (Descriptor.under ctx'.settings) ∨
      P.Loose ∧ ∃ x y, ofTokens ctx ts = .error x ∧ ofTokens ctx' us = .error y := by
  rcases aligned.cases_of_free rfl with ⟨rfl, rfl⟩ | ⟨t, ts, us, rfl, rfl, _, _⟩
  · exact .inl rfl
  cases t with
  | word text =>
    cases found : opening? text with
    | none => exact .inl (by simp [ofTokens, reader, found, Except.map])
    | some o =>
      have agree := (agree_readerOf fits fun call => firm text rfl (call ▸ found)).outcome aligned
      have dispatch (ctx : Context) (q : List Token) :
          ofTokens ctx (.word text :: q) = ((readerOf ctx o).run (.word text :: q)).1 := by
        simp [ofTokens, reader, found]
      rw [dispatch, dispatch]
      generalize (readerOf ctx o).run (.word text :: ts) = x at agree
      generalize (readerOf ctx' o).run (.word text :: us) = y at agree
      cases agree with
      | @error x y _ _ reason =>
        rcases reason with rfl | loose
        · exact .inl rfl
        · exact .inr ⟨loose, x, y, rfl, rfl⟩
      | ok related => exact .inl (congrArg Except.ok related)
  | _ => exact .inl rfl

end Statement

/-! ### The same tokens -/

def Pairing.identity (tokens : List Token) : Pairing where
  keeps t := t ∈ tokens
  swaps _ _ := False
  isValue h := h.elim

theorem Pairing.aligned_identity {tokens ts : List Token} (listed : ∀ t ∈ ts, t ∈ tokens) :
    (identity tokens).Aligned s ts ts := by
  induction ts generalizing s with
  | nil => exact .nil
  | cons t ts ih =>
    obtain ⟨first, others⟩ := List.forall_mem_cons.mp listed
    exact .same first (ih others)

/-- If the parameters give every token the value it had, a statement compiles as before but for what
the settings decide, and fails for the same reason. -/
theorem Statement.ofTokens_under {tokens : List Token}
    (depth : ctx'.settings.maxPredicateDepth = ctx.settings.maxPredicateDepth)
    (same : ∀ t ∈ tokens, ctx'.params.valueOf t = ctx.params.valueOf t) :
    ofTokens ctx' tokens = (ofTokens ctx tokens).map (Descriptor.under ctx'.settings) := by
  have firm : ¬ (identity tokens).Loose := by
    rintro ⟨_, _, swaps⟩
    exact swaps
  have fits : (identity tokens).Fits ctx ctx' := by
    refine ⟨depth, fun {t u} paired => ?_⟩
    rcases paired with ⟨listed, rfl⟩ | swaps
    · exact same t listed
    · exact swaps.elim
  rcases ofTokens_agree fits (aligned_identity fun _ => id) fun _ _ _ => firm with
    agree | ⟨loose, _⟩
  · exact agree
  · exact absurd loose firm

theorem Descriptor.under_of_ofTokens {tokens : List Token} {d : Descriptor}
    (h : Statement.ofTokens ctx tokens = .ok d) : d.under ctx.settings = d := by
  have again : Statement.ofTokens ctx tokens =
      (Statement.ofTokens ctx tokens).map (Descriptor.under ctx.settings) :=
    Statement.ofTokens_under rfl fun _ _ => rfl
  rw [h] at again
  exact (Except.ok.inj again).symm

theorem compile_under {settings settings' : Settings} {text : String} {params params' : Params}
    (depth : settings'.maxPredicateDepth = settings.maxPredicateDepth)
    (same : ∀ tokens, Token.tokenize (Statement.normalize text) = .ok tokens → ∀ t ∈ tokens,
      params'.valueOf t = params.valueOf t) :
    compile settings' text params' =
      (compile settings text params).map (Descriptor.under settings') := by
  rw [compile, compile]
  cases tokenized : Token.tokenize (Statement.normalize text) with
  | error e => rfl
  | ok tokens =>
    have under : Statement.ofTokens ⟨settings', params'⟩ tokens =
        (Statement.ofTokens ⟨settings, params⟩ tokens).map (Descriptor.under settings') :=
      Statement.ofTokens_under depth (same tokens tokenized)
    exact under

/-- What was compiled says what its own settings say. -/
theorem Descriptor.under_of_compile {settings : Settings} {text : String} {params : Params}
    {d : Descriptor} (h : compile settings text params = .ok d) : d.under settings = d := by
  have again : compile settings text params =
      (compile settings text params).map (Descriptor.under settings) :=
    compile_under rfl fun _ _ _ _ => rfl
  rw [h] at again
  exact (Except.ok.inj again).symm

end SqlBridge
