import SqlBridge.Proofs.Statement.Grammar

/-!
# Where names stand

The tokens before a token tell whether it is taken for a name, and for the name of what: after FROM
stands a table, after a table an alias if no clause begins, after WHERE a field, and so on. Each
clause is a way from spot to spot on which everything that is taken for a name gives one.
-/

namespace SqlBridge

/-- What a name is the name of. -/
inductive Role where
  | procedure
  | table
  | tableAlias
  /-- An entry of the select list. -/
  | column
  | columnAlias
  /-- An operand of the equality of a join. -/
  | operand
  /-- The field of a condition. -/
  | field
  /-- What a value is given to: a field of an assignment or a column of an insertion. -/
  | target
  /-- A field to order by. -/
  | ordered
deriving DecidableEq, Repr

/-- The spots in a statement, as far as the tokens before them tell. -/
inductive Spot where
  /-- The first token. -/
  | opening
  /-- After SELECT. -/
  | selecting
  /-- Between clauses. -/
  | clauses
  /-- Where a name is expected. -/
  | name (role : Role)
  /-- After a name, or after what belongs to it. -/
  | behind (role : Role)
  /-- The operator of a condition. -/
  | operator
  /-- The value that is compared with a name or given to it. -/
  | value (role : Role)
  /-- Where nothing is named any more. -/
  | rest
deriving DecidableEq, Repr

namespace Spot

/-- What a keyword introduces. -/
def ofKeyword? : String → Option Spot
  | "FROM" => some (.name .table)
  | "INTO" => some (.name .table)
  | "JOIN" => some (.name .table)
  | "ON" => some (.name .operand)
  | "WHERE" => some (.name .field)
  | "SET" => some (.name .target)
  | "BY" => some (.name .ordered)
  | "LIMIT" => some .rest
  | _ => none

/-- What a token introduces, if it is no part of the clause before it. -/
def introduced : Token → Spot
  | .word text => (ofKeyword? (Text.upper text)).getD .clauses
  | _ => .clauses

def ofOpening : Statement.Opening → Spot
  | .select => .selecting
  | .insert => .clauses
  | .update => .name .table
  | .delete => .clauses
  | .procedure => .name .procedure

/-- The spot after a token where a name is expected. Parentheses may stand before it. -/
def afterName (r : Role) (t : Token) : Spot :=
  match r with
  | .procedure => .rest
  | .tableAlias => .clauses
  | .columnAlias => .behind .column
  | .operand => if t = .leftParen then .name .operand else .behind .operand
  | .field => if t = .leftParen then .name .field else .operator
  | .table | .column | .target | .ordered => .behind r

/-- The keywords that may follow a table. Any other word is taken for its alias. -/
def tableFollowers : List String :=
  ["AS", "LEFT", "JOIN", "ON", "WHERE", "SET", "ORDER", "LIMIT"]

/-- Whether a token may follow a table without being its alias. -/
def followsTable (t : Token) : Bool :=
  t = .leftParen || tableFollowers.any fun k => t.isKeyword k

def afterBehind (r : Role) (t : Token) : Spot :=
  match r with
  | .table =>
    if t.isKeyword "AS" then .name .tableAlias
    else if t = .leftParen then .name .target
    else if followsTable t then introduced t
    else .clauses
  | .column =>
    if t = .comma then .name .column
    else if t.isKeyword "AS" then .name .columnAlias
    else introduced t
  | .operand => if t = .symbol "=" then .name .operand else introduced t
  | .target =>
    if t = .comma then .name .target
    else if t = .symbol "=" then .value .target
    else if t = .rightParen then .rest
    else introduced t
  | .field =>
    if t = .rightParen then .behind .field
    else if Condition.isBoundary t then introduced t
    else .name .field
  | .ordered =>
    if t = .comma then .name .ordered
    else if t.isKeyword "LIMIT" then .rest
    else .behind .ordered
  | .procedure | .tableAlias | .columnAlias => introduced t

def next (s : Spot) (t : Token) : Spot :=
  match s with
  | .opening =>
    match t with
    | .word text => ((Statement.opening? text).map ofOpening).getD .rest
    | _ => .rest
  | .selecting => if t.isKeyword "DISTINCT" then .name .column else .behind .column
  | .clauses => introduced t
  | .name r => afterName r t
  | .behind r => afterBehind r t
  | .operator => .value .field
  | .value r => .behind r
  | .rest => .rest

/-- What a token is taken to name in a spot. -/
def role? (s : Spot) (t : Token) : Option Role :=
  match s with
  | .selecting => if t = .word "*" ∨ t.isKeyword "DISTINCT" then none else some .column
  | .name .column => if t = .word "*" then none else some .column
  | .name .operand => if t = .leftParen then none else some .operand
  | .name .field => if t = .leftParen then none else some .field
  | .name r => some r
  | .behind .table => if followsTable t then none else some .tableAlias
  | _ => none

/-- The tokens that are taken for names, the first token standing in the given spot. -/
def along (s : Spot) : List Token → List (Token × Role)
  | [] => []
  | t :: p => (s.role? t).toList.map (Prod.mk t) ++ (s.next t).along p

end Spot

/-- The tokens of a statement that are taken for names, with what they name. -/
def Statement.named (tokens : List Token) : List (Token × Role) :=
  Spot.opening.along tokens

/-- The token gives the name. More words name the field of a condition than anything else. -/
def Role.Gives (r : Role) (t : Token) (name : String) : Prop :=
  if r = .field then Condition.FieldOf t name else t.name? = some name

variable {ctx : Context} {p q rest : List Token}

/-! ### Ways through a statement -/

namespace Spot

/-- The tokens lead from one spot to another, and those that are taken for names give these. -/
inductive Walk : Spot → List Token → List (Role × String) → Spot → Prop where
  | nil {s : Spot} : Walk s [] [] s
  | pass {s s' s'' : Spot} {t : Token} {p : List Token} {ns : List (Role × String)}
      (unnamed : s.role? t = none) (leads : s.next t = s') (others : Walk s' p ns s'') :
      Walk s (t :: p) ns s''
  | take {s s' s'' : Spot} {t : Token} {p : List Token} {r : Role} {name : String}
      {ns : List (Role × String)} (taken : s.role? t = some r) (gives : r.Gives t name)
      (leads : s.next t = s') (others : Walk s' p ns s'') :
      Walk s (t :: p) ((r, name) :: ns) s''

variable {s s' s'' : Spot} {t : Token} {k : String} {ns ms : List (Role × String)}

theorem Walk.append (first : Walk s p ns s') (second : Walk s' q ms s'') :
    Walk s (p ++ q) (ns ++ ms) s'' := by
  induction first with
  | nil => exact second
  | pass unnamed leads _ ih => exact .pass unnamed leads (ih second)
  | take taken gives leads _ ih => exact .take taken gives leads (ih second)

theorem Walk.gives (h : Walk s p ns s') :
    List.Forall₂ (fun x n => x.2 = n.1 ∧ x.2.Gives x.1 n.2) (s.along p) ns := by
  induction h with
  | nil => exact .nil
  | pass unnamed leads _ ih => rw [along, unnamed, leads]; exact ih
  | take taken gives leads _ ih => rw [along, taken, leads]; exact .cons ⟨rfl, gives⟩ ih

/-- What is taken for a name on the way gives one. -/
theorem Walk.gives_of_mem {x : Token × Role} (h : Walk s p ns s') (among : x ∈ s.along p) :
    ∃ name, x.2.Gives x.1 name := by
  have each := h.gives
  generalize s.along p = xs at each among
  clear h
  induction each with
  | nil => cases among
  | cons first _ ih =>
    rcases List.mem_cons.mp among with rfl | among
    · exact ⟨_, first.2⟩
    · exact ih among

theorem opening_next {o : Statement.Opening} (listed : k ∈ o.keywords)
    (same : t.isKeyword k = true) : opening.next t = ofOpening o := by
  cases t with
  | word text =>
    have found := Statement.opening?_eq_some_iff_isKeyword.mpr ⟨_, listed, same⟩
    simp only [next, found, Option.map_some, Option.getD_some]
  | _ => cases same

theorem introduced_of_isKeyword (same : t.isKeyword k = true) :
    introduced t = (ofKeyword? (Text.upper k)).getD .clauses := by
  cases t with
  | word text => rw [introduced, Text.sameWord_iff_upper_eq.mp same]
  | _ => cases same

theorem followsTable_of_name? {name : String} (named : t.name? = some name) :
    followsTable t = false := by
  have reserved : ∀ k ∈ tableFollowers, k ∈ Token.reservedWords := by decide
  have other : (tableFollowers.any fun k => t.isKeyword k) = false :=
    List.any_eq_false.mpr fun k listed => Token.not_isKeyword_of_name? named (reserved k listed)
  rw [followsTable, other, decide_eq_false (Token.ne_paren_of_name? named).1]
  rfl

theorem followsTable_of_isKeyword (same : t.isKeyword k = true) (listed : k ∈ tableFollowers) :
    followsTable t = true := by
  rw [followsTable, List.any_eq_true.mpr ⟨k, listed, same⟩, Bool.or_true]

/-- A clause may begin in the spot. -/
def StartsClause (s : Spot) : Prop :=
  s ∈ [clauses, behind .table, behind .operand, behind .target]

/-- The keywords of clauses but for AS, which belongs to its table. -/
def clauseKeywords : List String :=
  ["LEFT", "JOIN", "ON", "WHERE", "SET", "ORDER", "LIMIT"]

/-- Where a clause may begin, its keyword introduces it and is no name. -/
theorem StartsClause.next_eq (starts : s.StartsClause) (same : t.isKeyword k = true)
    (listed : k ∈ clauseKeywords) :
    s.role? t = none ∧ s.next t = introduced t := by
  have mark : t ≠ .leftParen ∧ t ≠ .rightParen ∧ t ≠ .comma ∧ t ≠ .symbol "=" :=
    ⟨Token.ne_of_isKeyword same rfl, Token.ne_of_isKeyword same rfl,
      Token.ne_of_isKeyword same rfl, Token.ne_of_isKeyword same rfl⟩
  have apart : ∀ k ∈ clauseKeywords, Text.upper k ≠ Text.upper "AS" ∧ k ∈ tableFollowers := by
    decide
  have plain : t.isKeyword "AS" = false := by
    refine Bool.eq_false_iff.mpr fun as => (apart k listed).1 ?_
    exact Token.upper_eq_of_isKeyword same as
  have follows := followsTable_of_isKeyword same (apart k listed).2
  simp only [StartsClause, List.mem_cons, List.not_mem_nil, or_false] at starts
  -- behind a table the keyword could be an alias, behind the others only a mark goes on
  rcases starts with rfl | rfl | rfl | rfl
  · exact ⟨rfl, rfl⟩
  · simp [role?, next, afterBehind, follows, plain, mark]
  · simp [role?, next, afterBehind, mark]
  · simp [role?, next, afterBehind, mark]

/-- A keyword that begins a clause. -/
theorem Walk.keyword (starts : s.StartsClause) (same : t.isKeyword k = true)
    (listed : k ∈ clauseKeywords) (leads : (ofKeyword? (Text.upper k)).getD .clauses = s')
    (others : Walk s' p ns s'') : Walk s (t :: p) ns s'' := by
  obtain ⟨unnamed, next⟩ := starts.next_eq same listed
  exact .pass unnamed (next.trans ((introduced_of_isKeyword same).trans leads)) others

/-- A keyword inside a clause. -/
theorem Walk.inner (same : t.isKeyword k = true)
    (leads : (ofKeyword? (Text.upper k)).getD .clauses = s') (others : Walk s' p ns s'') :
    Walk .clauses (t :: p) ns s'' :=
  .pass rfl ((introduced_of_isKeyword same).trans leads) others

/-- A name where it is expected, which is not the field of a condition. -/
theorem Walk.named {r : Role} {name : String} (apart : r ≠ .field)
    (taken : s.role? t = some r) (named : t.name? = some name) (leads : s.next t = s')
    (others : Walk s' p ns s'') : Walk s (t :: p) ((r, name) :: ns) s'' :=
  .take taken (by rwa [Role.Gives, if_neg apart]) leads others

theorem walk_rest : Walk .rest p [] .rest := by
  induction p with
  | nil => exact .nil
  | cons t p ih => exact .pass rfl rfl ih

end Spot

open Spot (Walk)

/-! ### Lists -/

theorem Reader.Items.names {α : Type} {s s' : Spot} {J : List Token → List Token → α → Prop}
    {f : α → List (Role × String)} {as : List α} (items : Items J rest p as)
    (comma : s'.role? .comma = none ∧ s'.next .comma = s)
    (each : ∀ {rest p a}, J rest p a → Walk s p (f a) s') : Walk s p (as.flatMap f) s' := by
  induction items with
  | last only => rw [List.flatMap_singleton]; exact each only
  | more first _ ih =>
    rw [List.flatMap_cons]
    exact (each first).append (.pass comma.1 comma.2 ih)

/-! ### Tables -/

def TableRef.takenNames (table : TableRef) : List (Role × String) :=
  (.table, table.name) :: table.otherName.toList.map (Prod.mk .tableAlias)

theorem AliasOf.names {o : Option String} (h : AliasOf rest p o) :
    ∃ s, Walk (.behind .table) p (o.toList.map (Prod.mk .tableAlias)) s ∧ s.StartsClause := by
  cases h with
  | @explicit k t a as named =>
    have follows := Spot.followsTable_of_isKeyword as (by decide)
    have role : (Spot.behind .table).role? k = none := by simp [Spot.role?, follows]
    have leads : (Spot.behind .table).next k = .name .tableAlias := by
      simp [Spot.next, Spot.afterBehind, as]
    have renamed : Walk (.name .tableAlias) [t] [(.tableAlias, a)] .clauses :=
      .named (by decide) rfl named rfl .nil
    exact ⟨.clauses, .pass role leads renamed, List.mem_cons_self⟩
  | @bare t a named =>
    have named := Reader.name?_of_bareAlias? named
    have plain := Token.not_isKeyword_of_name? named (k := "AS") (by decide)
    have follows := Spot.followsTable_of_name? named
    have role : (Spot.behind .table).role? t = some .tableAlias := by simp [Spot.role?, follows]
    have leads : (Spot.behind .table).next t = .clauses := by
      simp [Spot.next, Spot.afterBehind, follows, plain, (Token.ne_paren_of_name? named).1]
    exact ⟨.clauses, .named (by decide) role named leads .nil, List.mem_cons_self⟩
  | absent => exact ⟨.behind .table, .nil, by simp [Spot.StartsClause]⟩

theorem TableOf.names {table : TableRef} (h : TableOf rest p table) :
    ∃ s, Walk (.name .table) p table.takenNames s ∧ s.StartsClause := by
  cases h with
  | table named renamed =>
    obtain ⟨s, walk, starts⟩ := renamed.names
    exact ⟨s, .named (by decide) rfl named rfl walk, starts⟩

/-! ### Select lists -/

namespace Select

def Column.takenNames : Column → List (Role × String)
  | .star => []
  | .named name otherName => (.column, name) :: otherName.toList.map (Prod.mk .columnAlias)

theorem ColumnOf.names {c : Column} (h : ColumnOf rest p c) :
    Walk (.name .column) p c.takenNames (.behind .column) := by
  cases h with
  | star =>
    have leads : (Spot.name .column).next (.word "*") = .behind .column := rfl
    exact .pass rfl leads .nil
  | @renamed t k u column a visible named as other =>
    have comma : k ≠ .comma := Token.ne_of_isKeyword as rfl
    have role : (Spot.name .column).role? t = some .column := by simp [Spot.role?, visible]
    have leads : (Spot.behind .column).next k = .name .columnAlias := by
      simp [Spot.next, Spot.afterBehind, comma, as]
    have renamed : Walk (.name .columnAlias) [u] [(.columnAlias, a)] (.behind .column) :=
      .named (by decide) rfl other rfl .nil
    exact .named (by decide) role named rfl (.pass rfl leads renamed)
  | @plain t column visible named =>
    have role : (Spot.name .column).role? t = some .column := by simp [Spot.role?, visible]
    exact .named (by decide) role named rfl .nil

/-- After SELECT the first column stands, unless it is DISTINCT that stands there. -/
theorem walk_selecting {t : Token} {ns : List (Role × String)} {s : Spot}
    (apart : ¬ t.isKeyword "DISTINCT" = true) (h : Walk (.name .column) (t :: p) ns s) :
    Walk .selecting (t :: p) ns s := by
  have role : Spot.selecting.role? t = (Spot.name .column).role? t := by
    simp [Spot.role?, apart]
  have leads : Spot.selecting.next t = (Spot.name .column).next t := by
    simp [Spot.next, apart, Spot.afterName]
  cases h with
  | pass unnamed next others => exact .pass (role.trans unnamed) (leads.trans next) others
  | take taken gives next others => exact .take (role.trans taken) gives (leads.trans next) others

/-- The select list, with DISTINCT or without it. -/
theorem walk_columns {f : Token} {w c : List Token} {distinct : Bool} {columns : List Column}
    (marked : Reader.Marked "DISTINCT" (c ++ f :: q) w distinct)
    (listed : Reader.Items ColumnOf (f :: q) c columns) :
    Walk .selecting (w ++ c) (columns.flatMap Column.takenNames) (.behind .column) := by
  have walk : Walk (.name .column) c (columns.flatMap Column.takenNames) (.behind .column) :=
    listed.names ⟨rfl, rfl⟩ ColumnOf.names
  cases marked with
  | @present t here =>
    have role : Spot.selecting.role? t = none := by simp [Spot.role?, here]
    have leads : Spot.selecting.next t = .name .column := by simp [Spot.next, here]
    exact .pass role leads walk
  | absent apart =>
    -- the names must be a variable to take the way apart at its first token
    generalize columns.flatMap Column.takenNames = ns at walk ⊢
    rcases c with _ | ⟨t, c⟩
    · cases walk
    · exact walk_selecting (by simpa using apart) walk

end Select

/-! ### Joins -/

namespace Join

theorem Opens.names {s : Spot} (h : Opens p) (starts : s.StartsClause) :
    Walk s p [] (.name .table) := by
  cases h with
  | join join => exact .keyword starts join (by decide) rfl .nil
  | @left l j left join =>
    have joined : Walk .clauses [j] [] (.name .table) := .inner join rfl .nil
    exact .keyword starts left (by decide) rfl joined
  | @leftOuter l o j left outer join =>
    have joined : Walk .clauses [j] [] (.name .table) := .inner join rfl .nil
    have both : Walk .clauses [o, j] [] (.name .table) := .inner outer rfl joined
    exact .keyword starts left (by decide) rfl both

/-- A join with the names that stand in it. -/
structure Clause where
  table : TableRef
  left : String
  right : String

def Clause.takenNames (c : Clause) : List (Role × String) :=
  c.table.takenNames ++ [(.operand, c.left), (.operand, c.right)]

theorem EqualityOf.names {left right : String} (h : EqualityOf p left right) :
    ∃ s, Walk (.name .operand) p [(.operand, left), (.operand, right)] s ∧ s.StartsClause := by
  have role : ∀ {t : Token} {a}, t.name? = some a →
      (Spot.name .operand).role? t = some .operand := by
    intro t a named
    simp [Spot.role?, (Token.ne_paren_of_name? named).1]
  have leads : ∀ {t : Token} {a}, t.name? = some a →
      (Spot.name .operand).next t = .behind .operand := by
    intro t a named
    simp [Spot.next, Spot.afterName, (Token.ne_paren_of_name? named).1]
  have both : ∀ {t u : Token}, t.name? = some left → u.name? = some right →
      Walk (.name .operand) [t, .symbol "=", u] [(.operand, left), (.operand, right)]
        (.behind .operand) := by
    intro t u first second
    have last : Walk (.name .operand) [u] [(.operand, right)] (.behind .operand) :=
      .named (by decide) (role second) second (leads second) .nil
    exact .named (by decide) (role first) first (leads first) (.pass rfl rfl last)
  cases h with
  | bare first second => exact ⟨_, both first second, by simp [Spot.StartsClause]⟩
  | enclosed first second =>
    refine ⟨.clauses, ?_, List.mem_cons_self⟩
    have closed : Walk (.behind .operand) [.rightParen] [] .clauses := .pass rfl rfl .nil
    have opened : Walk (.name .operand) [.leftParen] [] (.name .operand) := .pass rfl rfl .nil
    exact opened.append ((both first second).append closed)

/-- The joins have lookups, each from its own clause. -/
def LooksUp (outer : TableRef) (clauses : List Clause) (stages : List Lookup) : Prop :=
  List.Forall₂ (fun c stage => lookup outer c.table c.left c.right = .ok stage) clauses stages

theorem JoinsOf.names {outer : TableRef} {stages : List Lookup} {s : Spot}
    (h : JoinsOf outer rest p stages) (starts : s.StartsClause) :
    ∃ clauses s', Walk s p (clauses.flatMap Clause.takenNames) s' ∧ s'.StartsClause ∧
      LooksUp outer clauses stages := by
  -- each join ends where a clause may begin, which is all that the next one needs
  induction h generalizing s with
  | nil => exact ⟨[], s, .nil, starts, .nil⟩
  | cons opens first _ ih =>
    cases first with
    | @on k _ _ joined left right _ table on equality found =>
      obtain ⟨s₁, table, starts₁⟩ := table.names
      obtain ⟨s₂, equality, starts₂⟩ := equality.names
      obtain ⟨clauses, s₃, others, starts₃, looked⟩ := ih starts₂
      refine ⟨⟨joined, left, right⟩ :: clauses, s₃, ?_, starts₃, .cons found looked⟩
      have condition := Walk.keyword starts₁ on (by decide) rfl equality
      have join := ((opens.names starts).append (table.append condition)).append others
      simpa [Clause.takenNames] using join

end Join

/-! ### Conditions -/

def Predicate.fieldNames (leaves : List Predicate) : List (Role × String) :=
  (leaves.filterMap Predicate.field?).map (Prod.mk .field)

theorem Predicate.fieldNames_append (xs ys : List Predicate) :
    fieldNames (xs ++ ys) = fieldNames xs ++ fieldNames ys := by
  rw [fieldNames, List.filterMap_append, List.map_append, fieldNames, fieldNames]

namespace Condition

theorem ConditionOf.names {x : Predicate} (h : ConditionOf ctx p x) :
    Walk (.name .field) p (Predicate.fieldNames [x]) (.behind .field) := by
  have walk : ∀ {t operator operand : Token} {field : String}, FieldOf t field →
      Walk (.name .field) [t, operator, operand] [(.field, field)] (.behind .field) := by
    intro t operator operand field named
    have role : (Spot.name .field).role? t = some .field := by
      simp [Spot.role?, named.ne_paren.1]
    have leads : (Spot.name .field).next t = .operator := by
      simp [Spot.next, Spot.afterName, named.ne_paren.1]
    exact .take role (by rwa [Role.Gives, if_pos rfl]) leads (.pass rfl rfl (.pass rfl rfl .nil))
  cases h with
  | comparison named => exact walk named
  | pattern named => exact walk named

theorem Connects.names {l : Logic} {t : Token} (h : Connects l t) :
    (Spot.behind .field).next t = .name .field := by
  obtain ⟨inside, inner⟩ := h.goes_on
  simp [Spot.next, Spot.afterBehind, inside, inner]

theorem ChainAt.names {n : Nat} {x : Predicate} {cs : List Predicate} (h : ChainAt ctx n p x cs) :
    Walk (.name .field) p (Predicate.fieldNames cs) (.behind .field) := by
  induction h using ChainAt.induct
    (T := fun _ p _ cs => Walk (.name .field) p (Predicate.fieldNames cs) (.behind .field))
    (Q := fun _ p _ cs => Walk (.behind .field) p (Predicate.fieldNames cs) (.behind .field)) with
  | condition single => exact single.names
  | enclosed _ _ inner =>
    have opened : Walk (.name .field) [.leftParen] [] (.name .field) := .pass rfl rfl .nil
    have closed : Walk (.behind .field) [.rightParen] [] (.behind .field) := .pass rfl rfl .nil
    have walk := opened.append (inner.append closed)
    rwa [List.nil_append, List.append_nil] at walk
  | nil => exact .nil
  | cons connects _ term others =>
    rw [Predicate.fieldNames_append]
    exact .pass rfl connects.names (term.append others)
  | fold _ _ first others =>
    rw [Predicate.fieldNames_append]
    exact first.append others

end Condition

namespace Spot

/-- ORDER and LIMIT may stand in the spot: where any clause may begin, and after a condition. -/
def StartsLast (s : Spot) : Prop :=
  s.StartsClause ∨ s = .behind .field

theorem StartsLast.next_eq {s : Spot} {t : Token} {k : String} (starts : s.StartsLast)
    (same : t.isKeyword k = true) (listed : k ∈ ["ORDER", "LIMIT"]) :
    s.role? t = none ∧ s.next t = introduced t := by
  rcases starts with starts | rfl
  · have among : ∀ k ∈ ["ORDER", "LIMIT"], k ∈ clauseKeywords := by decide
    exact starts.next_eq same (among k listed)
  · have later : ∀ k ∈ ["ORDER", "LIMIT"], k ∈ ["ORDER", "LIMIT", "GROUP"] := by decide
    have boundary : Condition.isBoundary t = true :=
      List.any_eq_true.mpr ⟨k, later k listed, same⟩
    simp [role?, next, afterBehind, (Token.ne_paren_of_isKeyword same).2, boundary]

end Spot

/-- The leaves of a filter, if there is one. -/
theorem Condition.WhereOf.names {s : Spot} {filter : Option Predicate}
    (h : WhereOf ctx rest p filter) (starts : s.StartsClause) :
    ∃ s', Walk s p (Predicate.fieldNames (filter.elim [] Predicate.leaves)) s' ∧
      s'.StartsLast := by
  cases h with
  | clause opens chain =>
    refine ⟨.behind .field, ?_, .inr rfl⟩
    have walk := chain.names
    rw [← chain.leaves_eq] at walk
    exact .keyword starts opens (by decide) rfl walk
  | absent => exact ⟨s, .nil, .inl starts⟩

/-! ### Ordering -/

namespace Ordering

theorem ElementOf.names {e : OrderElement} (h : ElementOf rest p e) :
    Walk (.name .ordered) p [(.ordered, e.field)] (.behind .ordered) := by
  have direction : ∀ {k : Token} {w : String}, k.isKeyword w = true →
      Text.upper w ≠ Text.upper "LIMIT" →
        Walk (.behind .ordered) [k] [] (.behind .ordered) := by
    intro k w same apart
    have comma : k ≠ .comma := Token.ne_of_isKeyword same rfl
    have limit : ¬ k.isKeyword "LIMIT" = true := fun limit =>
      apart (Token.upper_eq_of_isKeyword same limit)
    exact .pass rfl (by simp [Spot.next, Spot.afterBehind, comma, limit]) .nil
  cases h with
  | descending named desc =>
    exact .named (by decide) rfl named rfl (direction desc (by decide))
  | ascending named asc =>
    exact .named (by decide) rfl named rfl (direction asc (by decide))
  | plain named => exact .named (by decide) rfl named rfl .nil

theorem OrderByOf.names {s : Spot} {elements : List OrderElement}
    (h : OrderByOf rest p elements) (starts : s.StartsLast) :
    ∃ s', Walk s p ((elements.map OrderElement.field).map (Prod.mk .ordered)) s' ∧
      (s'.StartsLast ∨ s' = .behind .ordered) := by
  cases h with
  | @clause k j _ _ order by_ items =>
    obtain ⟨unnamed, next⟩ := starts.next_eq order (by decide)
    have leads : s.next k = .clauses := next.trans (Spot.introduced_of_isKeyword order)
    have listed : Walk (.name .ordered) _ _ (.behind .ordered) :=
      items.names ⟨rfl, rfl⟩ ElementOf.names
    rw [← List.map_eq_flatMap] at listed
    rw [List.map_map]
    exact ⟨_, .pass unnamed leads (.inner by_ rfl listed), .inr rfl⟩
  | absent => exact ⟨s, .nil, .inl starts⟩

theorem LimitOf.names {s : Spot} {o : Option Limit} (h : LimitOf ctx rest p o)
    (starts : s.StartsLast ∨ s = .behind .ordered) : ∃ s', Walk s p [] s' := by
  have first : ∀ {k : Token} {q : List Token}, k.isKeyword "LIMIT" = true →
      Walk s (k :: q) [] .rest := by
    intro k q limit
    rcases starts with starts | rfl
    · obtain ⟨unnamed, next⟩ := starts.next_eq limit (by decide)
      exact .pass unnamed (next.trans (Spot.introduced_of_isKeyword limit)) Spot.walk_rest
    · have comma : k ≠ .comma := Token.ne_of_isKeyword limit rfl
      have leads : (Spot.behind .ordered).next k = .rest := by
        simp [Spot.next, Spot.afterBehind, comma, limit]
      exact .pass rfl leads Spot.walk_rest
  cases h with
  | count limit => exact ⟨_, first limit⟩
  | pair limit => exact ⟨_, first limit⟩
  | offset limit => exact ⟨_, first limit⟩
  | absent => exact ⟨s, .nil⟩

end Ordering

end SqlBridge
