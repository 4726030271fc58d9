import SqlBridge.Proofs.Literal
import SqlBridge.Proofs.Statement.Printing
import SqlBridge.Proofs.Statement.Projection
import SqlBridge.Proofs.Statement.Qualifier

/-!
# Selections in any style

An abstract selection says what is selected and how each clause is put: with or without a keyword
that may be left out, with or without parentheses, a limit in one of its forms. Whatever its names
are, and in every style, its text compiles to the descriptor that it stands for.
-/

namespace SqlBridge

open Reader

inductive Renaming where
  | same
  | bare (other : String)
  | explicit (other : String)

structure Source where
  name : String
  renamed : Renaming

inductive JoinWords where
  | join
  | left
  | leftOuter

structure Joining where
  words : JoinWords
  source : Source
  inParentheses : Bool
  left : String
  right : String

/-- A select list: a star, or columns with or without aliases. -/
inductive SelectList where
  | star
  | columns (first : String × Option String) (others : List (String × Option String))

inductive Limiting where
  | count (n : Nat)
  | pair (m n : Nat)
  | offset (n m : Nat)

/-- A selection. Its condition is given by tokens of the grammar of WHERE clauses. -/
structure Selection where
  distinct : Bool
  list : SelectList
  source : Source
  joins : List Joining
  condition : Option (List Token)
  orderBy : List (String × Option Direction)
  limit : Option Limiting

/-! ### What a selection stands for -/

def Source.table (s : Source) : TableRef where
  name := s.name
  otherName := match s.renamed with
    | .same => none
    | .bare other => some other
    | .explicit other => some other

def SelectList.projection (primaryKey : String) : SelectList → Select.Projection
  | .star => {}
  | .columns first others => Select.shown primaryKey (first :: others)

def Limiting.limit : Limiting → Limit
  | .count n => ⟨0, .ofNat n⟩
  | .pair m n => ⟨.ofNat m, .ofNat n⟩
  | .offset n m => ⟨.ofNat m, .ofNat n⟩

/-- Every operand of the limit fits in 63 bits. -/
def Limiting.Fits : Limiting → Prop
  | .count n => n < 2 ^ 63
  | .pair m n => m < 2 ^ 63 ∧ n < 2 ^ 63
  | .offset n m => n < 2 ^ 63 ∧ m < 2 ^ 63

/-- Exactly one operand of a join is a field of the joined table. -/
def Joining.Qualified (j : Joining) : Prop :=
  Xor (∃ field, Join.Qualifies j.source.table j.left field)
    (∃ field, Join.Qualifies j.source.table j.right field)

/-- The lookup that a join has in a selection from a table. -/
def Joining.StageOf (outer : TableRef) (j : Joining) : Lookup → Prop :=
  Join.StageOf outer j.source.table j.left j.right

/-- The filters that a condition may have. -/
inductive Condition.FilterOf (ctx : Context) : Option (List Token) → Option Predicate → Prop where
  | none : FilterOf ctx none none
  | some {p : List Token} {x : Predicate} {conditions : List Predicate}
      (lexemes : ∀ t ∈ p, t.IsLexeme) (chain : ChainAt ctx 0 p x conditions) :
      FilterOf ctx (some p) (some x)

/-- The descriptor of a selection with the lookups of its joins and the filter of its condition. -/
def Selection.descriptor (primaryKey : String) (s : Selection) (stages : List Lookup)
    (filter : Option Predicate) : Descriptor where
  kind := if s.distinct then .command else .select
  table := s.source.name
  filter := filter
  projection := (s.list.projection primaryKey).included
  aliases := (s.list.projection primaryKey).aliases
  joins := stages
  orderBy := s.orderBy.map fun e => ⟨e.1, e.2.getD .asc⟩
  limit := s.limit.map Limiting.limit
  distinctOn := if s.distinct then some s.source.name else none

/-! ### How a selection is put together -/

def Renaming.pieces : Renaming → List Piece
  | .same => []
  | .bare other => [.name other]
  | .explicit other => [.keyword .as_, .name other]

def Source.pieces (s : Source) : List Piece :=
  .name s.name :: s.renamed.pieces

def JoinWords.pieces : JoinWords → List Piece
  | .join => [.keyword .join]
  | .left => [.keyword .left, .keyword .join]
  | .leftOuter => [.keyword .left, .keyword .outer, .keyword .join]

def Joining.equality (j : Joining) : List Piece :=
  if j.inParentheses then
    [.token .leftParen, .name j.left, .token (.symbol "="), .name j.right, .token .rightParen]
  else [.name j.left, .token (.symbol "="), .name j.right]

def Joining.pieces (j : Joining) : List Piece :=
  j.words.pieces ++ (j.source.pieces ++ .keyword .on :: j.equality)

/-- Lists of pieces with commas between them. -/
def Piece.separated (first : List Piece) : List (List Piece) → List Piece
  | [] => first
  | second :: others => first ++ .token .comma :: separated second others

def columnPieces : String × Option String → List Piece
  | (name, none) => [.name name]
  | (name, some other) => [.name name, .keyword .as_, .name other]

def SelectList.pieces : SelectList → List Piece
  | .star => [.token (.word "*")]
  | .columns first others => Piece.separated (columnPieces first) (others.map columnPieces)

def elementPieces : String × Option Direction → List Piece
  | (field, none) => [.name field]
  | (field, some .asc) => [.name field, .keyword .asc]
  | (field, some .desc) => [.name field, .keyword .desc]

def orderPieces : List (String × Option Direction) → List Piece
  | [] => []
  | first :: others =>
    .keyword .order :: .keyword .by_ ::
      Piece.separated (elementPieces first) (others.map elementPieces)

def Limiting.pieces : Limiting → List Piece
  | .count n => [.keyword .limit, .token (.word n.repr)]
  | .pair m n => [.keyword .limit, .token (.word m.repr), .token .comma, .token (.word n.repr)]
  | .offset n m =>
    [.keyword .limit, .token (.word n.repr), .keyword .offset, .token (.word m.repr)]

def conditionPieces : Option (List Token) → List Piece
  | none => []
  | some p => .keyword .where_ :: p.map .token

def limitPieces : Option Limiting → List Piece
  | none => []
  | some l => l.pieces

def Selection.clauses (s : Selection) : List Piece :=
  s.source.pieces ++ (s.joins.flatMap Joining.pieces ++
    (conditionPieces s.condition ++ (orderPieces s.orderBy ++ limitPieces s.limit)))

def Selection.pieces (s : Selection) : List Piece :=
  .keyword .select :: ((if s.distinct then [.keyword .distinct] else []) ++
    (s.list.pieces ++ .keyword .from_ :: s.clauses))

/-! ### What the clauses are read as -/

variable {ctx : Context} {p rest : List Token}

/-- Pieces with commas between them are the items that the lists of pieces are in front of a comma
and in front of what follows. -/
theorem items_of_separated {α β : Type} {J : List Token → List Token → β → Prop}
    (f : α → List Piece) (g : α → β) {ks : List Keyword} (after : OpensWith ks rest)
    (each : ∀ a q follow, Spelling (f a) q → follow.head? = some .comma ∨ OpensWith ks follow →
      J follow q (g a)) {a : α} {as : List α}
    (spelling : Spelling (Piece.separated (f a) (as.map f)) p) :
    Items J rest p ((a :: as).map g) := by
  induction as generalizing a p with
  | nil =>
    exact .last (each a p rest spelling (.inr after)) (after.head?_ne (by simp))
  | cons b bs ih =>
    obtain ⟨q, s, rfl, first, others⟩ := Spelling.append spelling
    obtain ⟨s, rfl, items⟩ := others.token
    exact .more (each a q _ first (.inl rfl)) (ih items)

theorem columnOf_pieces {c : String × Option String} (spelling : Spelling (columnPieces c) p)
    (after : rest.head? = some .comma ∨ OpensWith [.from_] rest) :
    Select.ColumnOf rest p (.named c.1 c.2) := by
  obtain ⟨name, _ | other⟩ := c
  · obtain ⟨s, rfl, end_⟩ := spelling.token
    obtain rfl := end_.nil
    refine .plain (by simp) rfl ?_
    rcases after with comma | from_
    · simp [AtKeyword, comma, Token.isKeyword]
    · exact from_.not_atKeyword (by decide)
  · obtain ⟨s, rfl, more⟩ := spelling.token
    obtain ⟨k, s, rfl, as, alias_⟩ := more.keyword
    obtain ⟨s, rfl, end_⟩ := alias_.token
    obtain rfl := end_.nil
    exact .renamed (by simp) rfl as rfl

def SelectList.entries : SelectList → List Select.Column
  | .star => [.star]
  | .columns first others => Select.named (first :: others)

theorem columns_pieces {l : SelectList} (spelling : Spelling l.pieces p)
    (after : OpensWith [.from_] rest) : Items Select.ColumnOf rest p l.entries := by
  cases l with
  | star =>
    obtain ⟨s, rfl, end_⟩ := spelling.token
    obtain rfl := end_.nil
    exact .last .star (after.head?_ne (by simp))
  | columns first others =>
    have each : ∀ c q follow, Spelling (columnPieces c) q →
        follow.head? = some .comma ∨ OpensWith [.from_] follow →
          Select.ColumnOf follow q (.named c.1 c.2) := fun _ _ _ => columnOf_pieces
    exact items_of_separated columnPieces _ after each spelling

theorem projection_entries {primaryKey : String} {l : SelectList} :
    Select.projection primaryKey l.entries = .ok (l.projection primaryKey) := by
  rw [Select.projection_eq_ok_iff]
  cases l with
  | star => exact .inl ⟨rfl, rfl⟩
  | columns first others => exact .inr ⟨_, rfl, rfl⟩

theorem marked_pieces {distinct : Bool} {columns : List Select.Column} {q more : List Token}
    (spelling : Spelling (if distinct then [.keyword .distinct] else []) p)
    (listed : Items Select.ColumnOf rest q columns) : Marked "DISTINCT" (q ++ more) p distinct := by
  cases distinct with
  | true =>
    obtain ⟨k, s, rfl, here, end_⟩ := Spelling.keyword spelling
    obtain rfl := end_.nil
    exact .present here
  | false =>
    obtain rfl := Spelling.nil spelling
    obtain ⟨t, s, rfl, apart⟩ := Select.not_isKeyword_of_items listed (k := "DISTINCT") (by decide)
    exact .absent (by simpa using apart)

/-- Keywords that are reserved are no alias. -/
theorem noAlias_of_opensWith {ks : List Keyword} (after : OpensWith ks rest)
    (reserved : ∀ k ∈ ks, k.text ∈ Token.reservedWords ∧ Text.upper k.text ≠ Text.upper "AS") :
    NoAlias rest := by
  refine ⟨after.not_atKeyword fun k listed => (reserved k listed).2, ?_⟩
  rcases rest with _ | ⟨t, rest⟩
  · rfl
  · obtain ⟨k, listed, here⟩ := after t rfl
    rw [List.head?_cons, Option.bind_some]
    cases named : bareAlias? t with
    | none => rfl
    | some a =>
      have := Token.not_isKeyword_of_name? (name?_of_bareAlias? named) (reserved k listed).1
      exact absurd here this

theorem tableOf_pieces {source : Source} {ks : List Keyword} (spelling : Spelling source.pieces p)
    (after : OpensWith ks rest)
    (reserved : ∀ k ∈ ks, k.text ∈ Token.reservedWords ∧ Text.upper k.text ≠ Text.upper "AS") :
    TableOf rest p source.table := by
  obtain ⟨name, _ | other | other⟩ := source
  · obtain ⟨s, rfl, end_⟩ := spelling.token
    obtain rfl := Spelling.nil end_
    exact .table rfl (.absent (noAlias_of_opensWith after reserved))
  · obtain ⟨s, rfl, more⟩ := spelling.token
    obtain ⟨s, rfl, end_⟩ := Spelling.token more
    obtain rfl := end_.nil
    exact .table rfl (.bare rfl)
  · obtain ⟨s, rfl, more⟩ := spelling.token
    obtain ⟨k, s, rfl, as, alias_⟩ := Spelling.keyword more
    obtain ⟨s, rfl, end_⟩ := alias_.token
    obtain rfl := end_.nil
    exact .table rfl (.explicit as rfl)

theorem opens_pieces {w : JoinWords} (spelling : Spelling w.pieces p) : Join.Opens p := by
  cases w with
  | join =>
    obtain ⟨j, s, rfl, join, end_⟩ := spelling.keyword
    obtain rfl := end_.nil
    exact .join join
  | left =>
    obtain ⟨l, s, rfl, left, more⟩ := spelling.keyword
    obtain ⟨j, s, rfl, join, end_⟩ := more.keyword
    obtain rfl := end_.nil
    exact .left left join
  | leftOuter =>
    obtain ⟨l, s, rfl, left, more⟩ := spelling.keyword
    obtain ⟨o, s, rfl, outer, more⟩ := more.keyword
    obtain ⟨j, s, rfl, join, end_⟩ := more.keyword
    obtain rfl := end_.nil
    exact .leftOuter left outer join

theorem equalityOf_pieces {j : Joining} (spelling : Spelling j.equality p) :
    Join.EqualityOf p j.left j.right := by
  rw [Joining.equality] at spelling
  split at spelling
  · obtain rfl : p = [.leftParen, .identifier j.left, .symbol "=", .identifier j.right,
      .rightParen] := Spelling.tokens spelling
    exact .enclosed rfl rfl
  · obtain rfl : p = [.identifier j.left, .symbol "=", .identifier j.right] :=
      Spelling.tokens spelling
    exact .bare rfl rfl

theorem joinsOf_pieces {outer : TableRef} {js : List Joining} {stages : List Lookup}
    (looked : List.Forall₂ (Joining.StageOf outer) js stages)
    (spelling : Spelling (js.flatMap Joining.pieces) p)
    (after : OpensWith [.where_, .order, .limit] rest) : Join.JoinsOf outer rest p stages := by
  induction looked generalizing p with
  | nil =>
    obtain rfl := spelling.nil
    refine .nil fun k listed => after.not_atKeyword ?_
    revert k
    decide
  | cons stage _ ih =>
    rw [List.flatMap_cons] at spelling
    obtain ⟨q, s, rfl, first, others⟩ := spelling.append
    obtain ⟨w, q, rfl, words, more⟩ := Spelling.append first
    obtain ⟨t, q, rfl, source, more⟩ := Spelling.append more
    obtain ⟨k, q, rfl, on, equality⟩ := Spelling.keyword more
    have on_ : OpensWith [.on] (k :: (q ++ (s ++ rest))) := opensWith_cons (by simp) on
    have joined := Join.JoinedOf.on (tableOf_pieces source on_ (by decide)) on
      (equalityOf_pieces equality) (Join.lookup_eq_ok_iff.mpr stage)
    rw [List.append_assoc]
    exact .cons (opens_pieces words) joined (ih others)

theorem elementOf_pieces {e : String × Option Direction} (spelling : Spelling (elementPieces e) p)
    (after : rest.head? = some .comma ∨ OpensWith [.limit] rest) :
    Ordering.ElementOf rest p ⟨e.1, e.2.getD .asc⟩ := by
  obtain ⟨field, _ | _ | _⟩ := e
  · obtain ⟨s, rfl, end_⟩ := spelling.token
    obtain rfl := end_.nil
    refine .plain rfl ?_
    rcases after with comma | limit
    · simp [AtKeyword, comma, Token.isKeyword]
    · exact ⟨limit.not_atKeyword (by decide), limit.not_atKeyword (by decide)⟩
  · obtain ⟨s, rfl, more⟩ := spelling.token
    obtain ⟨k, s, rfl, asc, end_⟩ := more.keyword
    obtain rfl := end_.nil
    exact .ascending rfl asc
  · obtain ⟨s, rfl, more⟩ := spelling.token
    obtain ⟨k, s, rfl, desc, end_⟩ := more.keyword
    obtain rfl := end_.nil
    exact .descending rfl desc

theorem orderByOf_pieces {es : List (String × Option Direction)}
    (spelling : Spelling (orderPieces es) p) (after : OpensWith [.limit] rest) :
    Ordering.OrderByOf rest p (es.map fun e => ⟨e.1, e.2.getD .asc⟩) := by
  cases es with
  | nil =>
    obtain rfl := spelling.nil
    exact .absent (after.not_atKeyword (by decide))
  | cons first others =>
    obtain ⟨k, s, rfl, order, more⟩ := spelling.keyword
    obtain ⟨j, s, rfl, by_, items⟩ := more.keyword
    have each : ∀ e q follow, Spelling (elementPieces e) q →
        follow.head? = some .comma ∨ OpensWith [.limit] follow →
          Ordering.ElementOf follow q ⟨e.1, e.2.getD .asc⟩ := fun _ _ _ => elementOf_pieces
    exact .clause order by_ (items_of_separated elementPieces _ after each items)

theorem countOf_repr {n : Nat} (h : n < 2 ^ 63) : ctx.CountOf (.word n.repr) (.ofNat n) :=
  ⟨rfl, Params.countOf_repr h⟩

theorem limitOf_pieces {l : Option Limiting} (fits : ∀ x ∈ l, x.Fits)
    (spelling : Spelling (limitPieces l) p) :
    Ordering.LimitOf ctx [] p (l.map Limiting.limit) := by
  rcases l with _ | n | ⟨m, n⟩ | ⟨n, m⟩
  · obtain rfl := spelling.nil
    exact .absent (by simp)
  · obtain ⟨k, s, rfl, limit, tokens⟩ := spelling.keyword
    obtain rfl : s = [.word n.repr] := Spelling.tokens tokens
    exact .count limit (countOf_repr (fits _ rfl)) (by simp)
  · obtain ⟨first, second⟩ := fits _ rfl
    obtain ⟨k, s, rfl, limit, tokens⟩ := spelling.keyword
    obtain rfl : s = [.word m.repr, .comma, .word n.repr] := Spelling.tokens tokens
    exact .pair limit (countOf_repr first) (countOf_repr second)
  · obtain ⟨first, second⟩ := fits _ rfl
    obtain ⟨k, s, rfl, limit, more⟩ := spelling.keyword
    obtain ⟨s, rfl, tail⟩ := more.token
    obtain ⟨o, s, rfl, offset, tokens⟩ := tail.keyword
    obtain rfl : s = [.word m.repr] := Spelling.tokens tokens
    exact .offset limit (countOf_repr first) offset (countOf_repr second)

/-! ### Which keyword is next -/

theorem opensWith_limitPieces {l : Option Limiting} (spelling : Spelling (limitPieces l) p) :
    OpensWith [.limit] p := by
  rcases l with _ | _ | _ | _
  · obtain rfl := spelling.nil
    exact opensWith_nil
  all_goals
    obtain ⟨k, s, rfl, limit, _⟩ := spelling.keyword
    exact opensWith_cons (by simp) limit

theorem opensWith_orderPieces {es : List (String × Option Direction)}
    (spelling : Spelling (orderPieces es) p) (after : OpensWith [.limit] rest) :
    OpensWith [.order, .limit] (p ++ rest) := by
  cases es with
  | nil =>
    obtain rfl := spelling.nil
    exact after.mono (by simp)
  | cons first others =>
    obtain ⟨k, s, rfl, order, _⟩ := spelling.keyword
    exact opensWith_cons (by simp) order

theorem opensWith_conditionPieces {c : Option (List Token)}
    (spelling : Spelling (conditionPieces c) p) (after : OpensWith [.order, .limit] rest) :
    OpensWith [.where_, .order, .limit] (p ++ rest) := by
  cases c with
  | none =>
    obtain rfl := spelling.nil
    exact after.mono (by simp)
  | some tokens =>
    obtain ⟨k, s, rfl, where_, _⟩ := spelling.keyword
    exact opensWith_cons (by simp) where_

theorem opensWith_joinPieces {js : List Joining} (spelling : Spelling (js.flatMap Joining.pieces) p)
    (after : OpensWith [.where_, .order, .limit] rest) :
    OpensWith [.join, .left, .where_, .order, .limit] (p ++ rest) := by
  cases js with
  | nil =>
    obtain rfl := spelling.nil
    exact after.mono (by simp)
  | cons j js =>
    rw [List.flatMap_cons, Joining.pieces] at spelling
    obtain ⟨words, source, inParentheses, left, right⟩ := j
    cases words with
    | join =>
      obtain ⟨k, s, rfl, join, _⟩ := spelling.keyword
      exact opensWith_cons (by simp) join
    | left =>
      obtain ⟨k, s, rfl, left, _⟩ := spelling.keyword
      exact opensWith_cons (by simp) left
    | leftOuter =>
      obtain ⟨k, s, rfl, left, _⟩ := spelling.keyword
      exact opensWith_cons (by simp) left

theorem endsClause_of_opensWith (after : OpensWith [.order, .limit] rest) :
    Condition.EndsClause rest := by
  refine Condition.endsClause_iff.mpr fun t ht => ?_
  obtain ⟨k, listed, here⟩ := after t ht
  have later : ∀ k ∈ [Keyword.order, .limit], k.text ∈ ["ORDER", "LIMIT", "GROUP"] := by decide
  exact List.any_eq_true.mpr ⟨k.text, later k listed, here⟩

theorem whereOf_pieces {c : Option (List Token)} {filter : Option Predicate}
    (filtered : Condition.FilterOf ctx c filter) (spelling : Spelling (conditionPieces c) p)
    (after : OpensWith [.order, .limit] rest) : Condition.WhereOf ctx rest p filter := by
  cases filtered with
  | none =>
    obtain rfl := spelling.nil
    exact .absent (after.not_atKeyword (by decide))
  | some lexemes chain =>
    obtain ⟨k, s, rfl, where_, tokens⟩ := spelling.keyword
    obtain rfl := Spelling.tokens tokens
    exact .clause where_ chain (endsClause_of_opensWith after)

/-! ### The whole selection -/

theorem clausesOf_pieces {s : Selection} {stages : List Lookup} {filter : Option Predicate}
    (looked : List.Forall₂ (Joining.StageOf s.source.table) s.joins stages)
    (filtered : Condition.FilterOf ctx s.condition filter) (fits : ∀ l ∈ s.limit, l.Fits)
    (spelling : Spelling s.clauses p) :
    Select.ClausesOf ctx p s.source.table stages filter
      (s.orderBy.map fun e => ⟨e.1, e.2.getD .asc⟩) (s.limit.map Limiting.limit) := by
  obtain ⟨t, q, rfl, source, more⟩ := Spelling.append spelling
  obtain ⟨j, q, rfl, joins, more⟩ := Spelling.append more
  obtain ⟨c, q, rfl, condition, more⟩ := Spelling.append more
  obtain ⟨o, l, rfl, order, limit⟩ := Spelling.append more
  have atLimit := opensWith_limitPieces limit
  have atOrder := opensWith_orderPieces order atLimit
  have atWhere := opensWith_conditionPieces condition atOrder
  have atJoins := opensWith_joinPieces joins atWhere
  exact .clauses (tableOf_pieces source atJoins (by decide)) (joinsOf_pieces looked joins atWhere)
    (whereOf_pieces filtered condition atOrder) (orderByOf_pieces order atLimit)
    (limitOf_pieces fits limit)

theorem statementOf_pieces {s : Selection} {stages : List Lookup} {filter : Option Predicate}
    (looked : List.Forall₂ (Joining.StageOf s.source.table) s.joins stages)
    (filtered : Condition.FilterOf ctx s.condition filter) (fits : ∀ l ∈ s.limit, l.Fits)
    (spelling : Spelling s.pieces p) :
    Select.StatementOf ctx p (s.descriptor ctx.settings.primaryKey stages filter) := by
  obtain ⟨k, q, rfl, select, more⟩ := Spelling.keyword spelling
  obtain ⟨w, q, rfl, distinct, more⟩ := Spelling.append more
  obtain ⟨c, q, rfl, list, more⟩ := Spelling.append more
  obtain ⟨f, q, rfl, from_, clauses⟩ := Spelling.keyword more
  have follow : OpensWith [.from_] (f :: q) := opensWith_cons (by simp) from_
  have listed := columns_pieces list follow
  exact .select select (marked_pieces distinct listed) listed from_
    (clausesOf_pieces looked filtered fits clauses) projection_entries

theorem exists_stages (outer : TableRef) {js : List Joining} (qualified : ∀ j ∈ js, j.Qualified) :
    ∃ stages, List.Forall₂ (Joining.StageOf outer) js stages := by
  have known : ∀ operand, ∃ here, Join.LocalOf outer operand here :=
    fun operand => ⟨_, Join.localOf_iff.mpr rfl⟩
  induction js with
  | nil => exact ⟨[], .nil⟩
  | cons j js ih =>
    obtain ⟨head, tail⟩ := List.forall_mem_cons.mp qualified
    obtain ⟨stages, others⟩ := ih tail
    rcases head with ⟨⟨field, looked⟩, other⟩ | ⟨⟨field, looked⟩, other⟩
    · obtain ⟨here, local_⟩ := known j.right
      exact ⟨_ :: stages, .cons (.left looked (not_exists.mp other) local_) others⟩
    · obtain ⟨here, local_⟩ := known j.left
      exact ⟨_ :: stages, .cons (.right (not_exists.mp other) looked local_) others⟩

/-! ### The tokens of a selection -/

theorem plain_separated {first : List Piece} {others : List (List Piece)}
    (all : ∀ ps ∈ first :: others, ∀ x ∈ ps, x.Plain) :
    ∀ x ∈ Piece.separated first others, x.Plain := by
  induction others generalizing first with
  | nil => exact all first List.mem_cons_self
  | cons second others ih =>
    obtain ⟨head, tail⟩ := List.forall_mem_cons.mp all
    rw [Piece.separated, List.forall_mem_append, List.forall_mem_cons]
    exact ⟨head, ⟨trivial, by simp⟩, ih tail⟩

@[simp] theorem plain_keyword {k : Keyword} : (Piece.keyword k).Plain :=
  trivial

@[simp] theorem plain_token {t : Token} :
    (Piece.token t).Plain ↔ t.IsLexeme ∧ t ≠ .semicolon :=
  Iff.rfl

@[simp] theorem plain_name {text : String} : (Piece.name text).Plain :=
  ⟨trivial, by simp⟩

theorem isLexeme_repr (n : Nat) : (Token.word n.repr).IsLexeme := by
  refine ⟨Literal.repr_ne_nil n, fun c hc => Token.isWordChar_of_isAlphanum ?_⟩
  rw [Char.isAlphanum, Literal.isDigit_of_mem_repr hc, Bool.or_true]

theorem plain_source (s : Source) : ∀ x ∈ s.pieces, x.Plain := by
  obtain ⟨name, _ | _ | _⟩ := s <;> simp [Source.pieces, Renaming.pieces]

theorem plain_joining (j : Joining) : ∀ x ∈ j.pieces, x.Plain := by
  have words : ∀ x ∈ j.words.pieces, x.Plain := by
    cases j.words <;> simp [JoinWords.pieces]
  have equality : ∀ x ∈ j.equality, x.Plain := by
    have equals : (Token.symbol "=").IsLexeme := ⟨by simp, by simp; decide⟩
    have opening : Token.leftParen.IsLexeme := trivial
    have closing : Token.rightParen.IsLexeme := trivial
    rw [Joining.equality]
    split <;> simp [equals, opening, closing]
  rw [Joining.pieces, List.forall_mem_append, List.forall_mem_append, List.forall_mem_cons]
  exact ⟨words, plain_source j.source, trivial, equality⟩

theorem plain_list (l : SelectList) : ∀ x ∈ l.pieces, x.Plain := by
  cases l with
  | star =>
    have star : (Token.word "*").IsLexeme := ⟨by simp, by simp; decide⟩
    simp [SelectList.pieces, star]
  | columns first others =>
    have each : ∀ c, ∀ x ∈ columnPieces c, x.Plain := by
      rintro ⟨_, _ | _⟩ <;> simp [columnPieces]
    apply plain_separated
    rw [← List.map_cons, List.forall_mem_map]
    exact fun c _ => each c

theorem plain_order (es : List (String × Option Direction)) : ∀ x ∈ orderPieces es, x.Plain := by
  cases es with
  | nil => simp [orderPieces]
  | cons first others =>
    have each : ∀ e, ∀ x ∈ elementPieces e, x.Plain := by
      rintro ⟨_, _ | _ | _⟩ <;> simp [elementPieces]
    rw [orderPieces, List.forall_mem_cons, List.forall_mem_cons]
    refine ⟨trivial, trivial, plain_separated ?_⟩
    rw [← List.map_cons, List.forall_mem_map]
    exact fun e _ => each e

theorem plain_limit (l : Option Limiting) : ∀ x ∈ limitPieces l, x.Plain := by
  have comma : Token.comma.IsLexeme := trivial
  rcases l with _ | _ | _ | _ <;> simp [limitPieces, Limiting.pieces, isLexeme_repr, comma]

theorem plain_condition {c : Option (List Token)} {filter : Option Predicate}
    (filtered : Condition.FilterOf ctx c filter) : ∀ x ∈ conditionPieces c, x.Plain := by
  cases filtered with
  | none => simp [conditionPieces]
  | some lexemes chain =>
    rw [conditionPieces, List.forall_mem_cons, List.forall_mem_map]
    refine ⟨trivial, fun t ht => ⟨lexemes t ht, ?_⟩⟩
    rintro rfl
    exact chain.no_semicolon ht

theorem plain_pieces {s : Selection} {filter : Option Predicate}
    (filtered : Condition.FilterOf ctx s.condition filter) : ∀ x ∈ s.pieces, x.Plain := by
  have joins : ∀ x ∈ s.joins.flatMap Joining.pieces, x.Plain := by
    intro x hx
    obtain ⟨j, _, hj⟩ := List.mem_flatMap.mp hx
    exact plain_joining j x hj
  have marked : ∀ x ∈ (if s.distinct then [Piece.keyword .distinct] else []), x.Plain := by
    cases s.distinct <;> simp
  simp only [Selection.pieces, Selection.clauses, List.forall_mem_cons, List.forall_mem_append]
  exact ⟨trivial, marked, plain_list s.list, trivial, plain_source s.source, joins,
    plain_condition filtered, plain_order s.orderBy, plain_limit s.limit⟩

/-- Whatever its names are, and in every style, a selection compiles to its descriptor, if exactly
one operand of each join is a field of the joined table, its condition is one of the grammar, and
its limit fits. -/
theorem compile_selection {settings : Settings} {params : Params} (style : Style) (s : Selection)
    {filter : Option Predicate} (qualified : ∀ j ∈ s.joins, j.Qualified)
    (filtered : Condition.FilterOf ⟨settings, params⟩ s.condition filter)
    (fits : ∀ l ∈ s.limit, l.Fits) :
    ∃ stages, List.Forall₂ (Joining.StageOf s.source.table) s.joins stages ∧
      compile settings (style.print s.pieces) params =
        .ok (s.descriptor settings.primaryKey stages filter) := by
  obtain ⟨stages, looked⟩ := exists_stages s.source.table qualified
  refine ⟨stages, looked, ?_⟩
  have plain : ∀ x ∈ s.pieces, x.Plain := plain_pieces filtered
  exact compile_print (o := .select) plain fun _ spelling =>
    statementOf_pieces looked filtered fits spelling

theorem compile_selection_with_join :
    ∃ d, compile {} ("SELECT DISTINCT \x60name\x60 AS \x60n\x60 FROM \x60users\x60 \x60u\x60 " ++
        "LEFT JOIN \x60orders\x60 ON ( \x60u.id\x60 = \x60orders.user\x60 ) WHERE age >= 18 " ++
        "ORDER BY \x60name\x60 DESC LIMIT 5 , 10") ∅ = .ok d ∧
      d.filter = some (.comparison "age" .gte (.int 18)) ∧ d.limit = some ⟨5, 10⟩ ∧
      d.projection.entries = [("name", true), ("_id", false)] := by
  let s : Selection := {
    distinct := true
    list := .columns ("name", some "n") []
    source := ⟨"users", .bare "u"⟩
    joins := [⟨.left, ⟨"orders", .same⟩, true, "u.id", "orders.user"⟩]
    condition := some [.word "age", .symbol ">=", .word "18"]
    orderBy := [("name", some .desc)]
    limit := some (.pair 5 10) }
  have qualified : ∀ j ∈ s.joins, j.Qualified := by
    intro j hj
    obtain rfl := List.mem_singleton.mp hj
    refine .inr ⟨⟨"user", Join.fieldOf?_eq_some_iff.mp (by decide +kernel)⟩, ?_⟩
    rintro ⟨field, own⟩
    exact Join.fieldOf?_eq_none_iff.mp (by decide +kernel) field own
  have filtered : Condition.FilterOf ⟨{}, ∅⟩ s.condition
      (some (.comparison "age" .gte (.int 18))) := by
    have tokens : Token.tokenize "age >= 18" = .ok [.word "age", .symbol ">=", .word "18"] := by
      decide +kernel
    have named : Condition.FieldOf (.word "age") "age" :=
      Condition.field?_eq_some_iff.mp (by decide +kernel)
    have given : Params.ValueOf ∅ (.word "18") (.int 18) :=
      Params.valueOf_iff.mpr ⟨rfl, by decide +kernel⟩
    have chain : Condition.ChainAt ⟨{}, ∅⟩ 0 [.word "age", .symbol ">=", .word "18"]
        (.comparison "age" .gte (.int 18)) [.comparison "age" .gte (.int 18)] :=
      .fold (.condition (.comparison named (by simp [Operator.symbols]) given)) .nil
    exact .some (Token.isLexeme_of_tokenize tokens) chain
  have fits : ∀ l ∈ s.limit, l.Fits := by
    intro l hl
    obtain rfl := Option.some.inj hl
    exact ⟨by decide, by decide⟩
  have text : Style.plain.print s.pieces =
      "SELECT DISTINCT \x60name\x60 AS \x60n\x60 FROM \x60users\x60 \x60u\x60 " ++
        "LEFT JOIN \x60orders\x60 ON ( \x60u.id\x60 = \x60orders.user\x60 ) WHERE age >= 18 " ++
        "ORDER BY \x60name\x60 DESC LIMIT 5 , 10" := by
    decide +kernel
  obtain ⟨stages, _, h⟩ := compile_selection Style.plain s qualified filtered fits
  have shown : (s.list.projection "_id").included.entries = [("name", true), ("_id", false)] := by
    decide +kernel
  rw [text] at h
  exact ⟨_, h, rfl, rfl, shown⟩

end SqlBridge
