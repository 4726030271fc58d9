import SqlBridge.Proofs.Sql.Correspondence

/-!
# Qualifiers in rendered selections

In rendered text a column may have a qualifier: the names in front of it with points between them.
A qualifier is in scope if it is a single name and one under which FROM or a join introduces a
table. The qualifiers of a selection are those of its columns and of the conditions of its joins, so
all of them are in scope exactly if each column is qualified by a table that is introduced.
-/

namespace SqlBridge

/-- The names under which a selection can refer to its tables. -/
def Descriptor.scope (d : Descriptor) : List String :=
  d.table :: d.joins.map Lookup.exposedAs

/-- The columns that a selection names outside the conditions of its joins. -/
def Descriptor.columnNames (d : Descriptor) : List String :=
  d.included ++ (d.filterLeaves.filterMap Predicate.field? ++ d.orderBy.map OrderElement.field)

/-- The columns that a selection names, those of the outer tables of its joins too. -/
def Descriptor.allColumnNames (d : Descriptor) : List String :=
  d.columnNames ++ d.joins.map Lookup.localField

namespace Sql

/-- The qualifier of a name is what stands before its last point. -/
def IsQualifiedBy (name qualifier : String) : Prop :=
  ∃ column, name = qualifier ++ "." ++ column ∧ '.' ∉ column.toList

/-! ### What text says about tables -/

/-- The qualifiers in a text, of which the names before it are the first. -/
def qualifiers (before : List String) : List Lexeme → List (List String)
  | [] => []
  | .identifier name :: rest =>
    if rest.head? = some (.mark '.') then qualifiers (before ++ [name]) rest
    else if before = [] then qualifiers [] rest
    else before :: qualifiers [] rest
  | .mark c :: rest => qualifiers (if c = '.' then before else []) rest
  | .run _ _ :: rest => qualifiers [] rest

/-- Whether the name of a table stands next. -/
def Lexeme.opensTable : Lexeme → Bool
  | .run .word text => ["FROM", "JOIN"].contains text
  | _ => false

def asWord : Lexeme :=
  .run .word "AS"

/-- The name under which the table that stands first is known: its alias, if there is one. -/
def exposed? : List Lexeme → Option String
  | .identifier name :: rest =>
    match rest with
    | l :: .identifier other :: _ => if l = asWord then some other else some name
    | _ => some name
  | _ => none

/-- The names that a text introduces for its tables. -/
def introduced : List Lexeme → List String
  | [] => []
  | l :: rest => (if l.opensTable then (exposed? rest).toList else []) ++ introduced rest

/-- Every qualifier is a name that is introduced. -/
def InScope (ls : List Lexeme) : Prop :=
  ∀ x ∈ qualifiers [] ls, ∃ name ∈ introduced ls, x = [name]

instance (ls : List Lexeme) : Decidable (InScope ls) :=
  inferInstanceAs (Decidable (∀ x ∈ qualifiers [] ls, ∃ name ∈ introduced ls, x = [name]))

example : (lexemes? "SELECT \"u\".\"a\" FROM \"t\" AS \"u\"").any (InScope ·) = true := by decide

/-- The qualifiers of a column with these segments. -/
def qualifiersOf (names : List String) : List (List String) :=
  if names.dropLast = [] then [] else [names.dropLast]

def namesOf (name : String) : List String :=
  (segments name.toList).map String.ofList

/-- Whether a lexeme is no name and no point, and does not open a table. -/
def Lexeme.isPlain : Lexeme → Bool
  | .identifier _ => false
  | .mark c => c ≠ '.'
  | .run kind text => !(Lexeme.run kind text).opensTable

/-- Whether fixed text has neither names nor points in it, nor opens a table. -/
def isPlain (text : String) : Bool :=
  ((lexemes? text).getD []).all Lexeme.isPlain

/-- In front of anything but a point, parts have the qualifiers `xs` and introduce the tables
`ts`. -/
structure Mentions (ps : List Part) (xs : List (List String)) (ts : List String) : Prop where
  starts : ∀ n, (lexemesFrom n ps).head? ≠ some (.mark '.')
  qualifiers : ∀ n ms, ms.head? ≠ some (.mark '.') →
    qualifiers [] (lexemesFrom n ps ++ ms) = xs ++ qualifiers [] ms
  introduced : ∀ n ms, introduced (lexemesFrom n ps ++ ms) = ts ++ introduced ms

variable {d : Descriptor} {ps qs : List Part} {xs ys : List (List String)} {ts us : List String}
  {text name : String} {n : Nat}

/-! ### Names with points -/

def points (names : List String) : List Part :=
  separatedBy "." (names.map fun s => [.identifier s])

theorem lexemesFrom_points (first second : String) (others : List String) :
    lexemesFrom n (points (first :: second :: others)) =
      .identifier first :: .mark '.' :: lexemesFrom n (points (second :: others)) := by
  have point : lexemes? "." = some [.mark '.'] := by decide
  simp [points, separatedBy_cons_cons, lexemesFrom, Part.lexemes, Part.values, point]

theorem qualifiers_points {ms : List Lexeme} (after : ms.head? ≠ some (.mark '.'))
    (before : List String) (first : String) (others : List String) :
    qualifiers before (lexemesFrom n (points (first :: others)) ++ ms) =
      (if before ++ (first :: others).dropLast = [] then []
        else [before ++ (first :: others).dropLast]) ++ qualifiers [] ms := by
  induction others generalizing first before with
  | nil =>
    have only : lexemesFrom n (points [first]) = [.identifier first] := rfl
    rw [only, List.singleton_append, qualifiers, if_neg after]
    split <;> simp_all
  | cons second others ih =>
    rw [lexemesFrom_points, List.cons_append, List.cons_append, qualifiers, List.head?_cons,
      if_pos rfl, qualifiers, if_pos rfl, ih]
    simp

theorem introduced_points {ms : List Lexeme} (first : String) (others : List String) :
    introduced (lexemesFrom n (points (first :: others)) ++ ms) = introduced ms := by
  induction others generalizing first with
  | nil => rfl
  | cons second others ih =>
    rw [lexemesFrom_points]
    exact ih second

theorem exists_namesOf (name : String) : ∃ first others, namesOf name = first :: others := by
  obtain ⟨first, others, split, _⟩ := segments_eq name.toList
  exact ⟨_, _, by rw [namesOf, split, List.map_cons]⟩

theorem qualified_eq (name : String) : qualified name = points (namesOf name) := by
  rw [qualified, points, namesOf, List.map_map]
  rfl

theorem segments_of_not_mem {cs : List Char} (h : '.' ∉ cs) : segments cs = [cs] := by
  obtain ⟨first, others, split, same⟩ := segments_eq cs
  cases others with
  | nil =>
    rw [Token.pointed, List.flatMap_nil, List.append_nil] at same
    rw [split, same]
  | cons part parts =>
    have inside : '.' ∈ cs := by
      rw [same]
      simp [Token.pointed]
    exact absurd inside h

theorem namesOf_of_not_mem (h : '.' ∉ name.toList) : namesOf name = [name] := by
  rw [namesOf, segments_of_not_mem h, List.map_singleton, String.ofList_toList]

/-! ### Parts in a row -/

theorem head?_append_ne {ls ms : List Lexeme} {l : Lexeme} (first : ls.head? ≠ some l)
    (second : ms.head? ≠ some l) : (ls ++ ms).head? ≠ some l := by
  cases ls with
  | nil => exact second
  | cons _ _ => exact first

theorem qualifiers_of_plain {ls ms : List Lexeme} (plain : ∀ l ∈ ls, l.isPlain = true) :
    qualifiers [] (ls ++ ms) = qualifiers [] ms := by
  induction ls with
  | nil => rfl
  | cons l ls ih =>
    obtain ⟨first, others⟩ := List.forall_mem_cons.mp plain
    cases l with
    | identifier name => cases first
    | mark c =>
      rw [List.cons_append, qualifiers, if_neg (of_decide_eq_true first)]
      exact ih others
    | run kind text => exact ih others

theorem introduced_of_plain {ls ms : List Lexeme} (plain : ∀ l ∈ ls, l.isPlain = true) :
    introduced (ls ++ ms) = introduced ms := by
  induction ls with
  | nil => rfl
  | cons l ls ih =>
    obtain ⟨first, others⟩ := List.forall_mem_cons.mp plain
    have closed : l.opensTable = false := by
      cases l with
      | run kind text => exact (Bool.not_eq_true' _).mp first
      | _ => rfl
    rw [List.cons_append, introduced, closed, if_neg Bool.false_ne_true]
    exact ih others

namespace Mentions

theorem nil : Mentions [] [] [] :=
  ⟨by simp [lexemesFrom], fun _ _ _ => rfl, fun _ _ => rfl⟩

theorem append (first : Mentions ps xs ts) (second : Mentions qs ys us) :
    Mentions (ps ++ qs) (xs ++ ys) (ts ++ us) := by
  refine ⟨fun n => ?_, fun n ms after => ?_, fun n ms => ?_⟩
  · rw [lexemesFrom_append]
    exact head?_append_ne (first.starts _) (second.starts _)
  · have apart := head?_append_ne (second.starts (n + (paramsOf ps).length)) after
    rw [lexemesFrom_append, List.append_assoc, first.qualifiers _ _ apart,
      second.qualifiers _ _ after, List.append_assoc]
  · rw [lexemesFrom_append, List.append_assoc, first.introduced, second.introduced,
      List.append_assoc]

/-- Plain lexemes say nothing about tables. -/
theorem of_plain {ls : List Lexeme} (single : ∀ n, lexemesFrom n ps = ls)
    (plain : ∀ l ∈ ls, l.isPlain = true) : Mentions ps [] [] := by
  refine ⟨fun n head => ?_, fun n ms _ => ?_, fun n ms => ?_⟩
  · rw [single] at head
    exact absurd (plain _ (List.mem_of_head? head)) (by decide)
  · rw [single]
    exact qualifiers_of_plain plain
  · rw [single]
    exact introduced_of_plain plain

theorem phrase (text : String) (plain : isPlain text = true) : Mentions [.fixed text] [] [] :=
  of_plain (fun _ => List.append_nil _) (List.all_eq_true.mp plain)

theorem param (v : Value) : Mentions [.param v] [] [] :=
  ⟨fun n => by simp [lexemesFrom, Part.lexemes], fun _ _ _ => rfl, fun _ _ => rfl⟩

theorem number (n : Nat) : Mentions [.fixed n.repr] [] [] := by
  have single : ∀ m, lexemesFrom m [.fixed n.repr] = [.run .number n.repr] := by
    intro m
    simp [lexemesFrom, Part.lexemes, lexemes?_repr]
  exact of_plain single (List.forall_mem_singleton.mpr rfl)

/-- Of names with points between them all but the last one are the qualifier. -/
theorem of_points (first : String) (others : List String) :
    Mentions (points (first :: others)) (qualifiersOf (first :: others)) [] := by
  refine ⟨fun n => ?_, fun n ms after => qualifiers_points after [] first others,
    fun n ms => introduced_points first others⟩
  cases others <;> simp [points, Sql.separatedBy, lexemesFrom, Part.lexemes]

theorem identifier (name : String) : Mentions [.identifier name] [] [] :=
  of_points name []

theorem qualified (name : String) : Mentions (qualified name) (qualifiersOf (namesOf name)) [] := by
  obtain ⟨first, others, split⟩ := exists_namesOf name
  rw [qualified_eq, split]
  exact of_points first others

/-- A name after another one and a point is qualified by that one too. -/
theorem pointed (qualifier name : String) :
    Mentions ([.identifier qualifier, .fixed "."] ++ Sql.qualified name)
      (qualifiersOf (qualifier :: namesOf name)) [] := by
  obtain ⟨first, others, split⟩ := exists_namesOf name
  rw [qualified_eq, split]
  exact of_points qualifier (first :: others)

theorem separatedBy {α : Type} {separator : String} (plain : isPlain separator = true)
    {f : α → List Part} {g : α → List (List String)} {as : List α}
    (each : ∀ a ∈ as, Mentions (f a) (g a) []) :
    Mentions (separatedBy separator (as.map f)) (as.flatMap g) [] := by
  induction as with
  | nil => exact nil
  | cons a as ih =>
    obtain ⟨first, others⟩ := List.forall_mem_cons.mp each
    cases as with
    | nil => simpa [Sql.separatedBy] using first
    | cons b as => exact first.append ((phrase _ plain).append (ih others))

theorem flatMap {α : Type} {f : α → List Part} {g : α → List (List String)} {h : α → String}
    {as : List α} (each : ∀ a ∈ as, Mentions (f a) (g a) [h a]) :
    Mentions (as.flatMap f) (as.flatMap g) (as.map h) := by
  induction as with
  | nil => exact nil
  | cons a as ih =>
    obtain ⟨first, others⟩ := List.forall_mem_cons.mp each
    exact first.append (ih others)

end Mentions

/-! ### Clauses -/

def columnQualifiers (column : String) : List (List String) :=
  qualifiersOf (namesOf column)

theorem mentions_comparedWith {field : String} {operator : Operator} {v : Value}
    (h : comparedWith field operator v = .ok ps) : Mentions ps [] [] := by
  rcases comparedWith_eq_ok h with ⟨_, text, listed, rfl⟩ | ⟨_, rfl⟩
  · have plain : ∀ text ∈ [" IS NULL", " IS NOT NULL"], isPlain text = true := by decide
    exact .phrase text (plain text listed)
  · have plain : isPlain (" " ++ operator.symbol ++ " ") = true := by
      cases operator <;> decide
    exact (Mentions.phrase _ plain).append (.param v)

theorem Mentions.inParentheses (h : Mentions ps xs ts) :
    Mentions (.fixed "(" :: ps ++ [.fixed ")"]) xs ts := by
  have opened := (phrase "(" (by decide)).append h
  simpa using opened.append (phrase ")" (by decide))

mutual

/-- A predicate mentions the fields of its leaves. -/
theorem mentions_predicate : ∀ (p : Predicate) {ps : List Part}, predicate p = .ok ps →
    Mentions ps ((p.leaves.filterMap Predicate.field?).flatMap columnQualifiers) []
  | .comparison field operator v, _, h => by
    obtain ⟨rest, compared, rfl⟩ := comparison_eq_ok h
    have inner := (Mentions.qualified field).append (mentions_comparedWith compared)
    simpa [Predicate.field?, columnQualifiers] using inner.inParentheses
  | .pattern field regex caseInsensitive, _, h => by
    obtain ⟨text, listed, rfl⟩ := pattern_eq_ok h
    have plain : ∀ text ∈ [" ~ ", " ~* "], isPlain text = true := by decide
    have matched := (Mentions.phrase text (plain text listed)).append (.param (.str regex))
    have inner := (Mentions.qualified field).append matched
    simpa [Predicate.field?, columnQualifiers] using inner.inParentheses
  | .group logic children, _, h => by
    obtain ⟨inner, written, rfl⟩ := group_eq_ok h
    have plain : isPlain (connective logic) = true := by
      cases logic <;> decide
    rw [Predicate.leaves]
    exact (mentions_predicates plain children written).inParentheses

theorem mentions_predicates {separator : String} (plain : isPlain separator = true) :
    ∀ (ps : List Predicate) {pss : List (List Part)}, predicates ps = .ok pss →
      Mentions (separatedBy separator pss)
        (((Predicate.leavesOf ps).filterMap Predicate.field?).flatMap columnQualifiers) []
  | [], _, h => by
    obtain rfl := Except.ok.inj h
    exact .nil
  | p :: rest, _, h => by
    obtain ⟨first, others, here, later, rfl⟩ := predicates_cons_eq_ok h
    have head := mentions_predicate p here
    have tail := mentions_predicates plain rest later
    rw [Predicate.leavesOf, List.filterMap_append, List.flatMap_append]
    cases others with
    | nil => simpa [separatedBy] using head.append tail
    | cons second others => exact head.append ((Mentions.phrase _ plain).append tail)

end

theorem mentions_where (h : whereClause d.filter = .ok ps) :
    Mentions ps ((d.filterLeaves.filterMap Predicate.field?).flatMap columnQualifiers) [] := by
  rw [Descriptor.filterLeaves]
  rcases whereClause_eq_ok h with ⟨none, rfl⟩ | ⟨p, qs, filtered, written, rfl⟩
  · rw [none]
    exact .nil
  · rw [filtered]
    exact (Mentions.phrase _ (by decide)).append (mentions_predicate p written)

theorem mentions_selectItem (column : String) :
    Mentions (selectItem d column) (columnQualifiers column) [] := by
  have written := Mentions.qualified column
  rw [selectItem, columnQualifiers]
  cases d.aliasOf? column with
  | none => simpa using written.append .nil
  | some other =>
    have renamed := (Mentions.phrase " AS " (by decide)).append (.identifier other)
    simpa using written.append renamed

theorem mentions_selectList :
    Mentions (selectList d) (d.included.flatMap columnQualifiers) [] := by
  rw [selectList]
  split
  · next nothing =>
    rw [List.isEmpty_iff.mp nothing]
    exact .phrase _ (by decide)
  · exact .separatedBy (by decide) fun column _ => mentions_selectItem column

theorem mentions_order (es : List OrderElement) :
    Mentions (orderClause es) ((es.map OrderElement.field).flatMap columnQualifiers) [] := by
  have each : ∀ e ∈ es, Mentions (orderItem e) (columnQualifiers e.field) [] := by
    intro e _
    have written := Mentions.qualified e.field
    rw [orderItem, columnQualifiers]
    cases e.direction with
    | asc => simpa using written.append (.phrase " ASC" (by decide))
    | desc => simpa using written.append (.phrase " DESC" (by decide))
  rw [orderClause, List.flatMap_map]
  split
  · next nothing =>
    rw [List.isEmpty_iff.mp nothing]
    exact .nil
  · exact (Mentions.phrase _ (by decide)).append (.separatedBy (by decide) each)

theorem mentions_limit (o : Option Limit) : Mentions (limitClause o) [] [] := by
  cases o with
  | none => exact .nil
  | some l =>
    have count := (Mentions.phrase " LIMIT " (by decide)).append (.number l.count.toNat)
    have offset := (Mentions.phrase " OFFSET " (by decide)).append
      (.number l.offset.toNat)
    rw [limitClause]
    split
    · exact count.append offset
    · exact count.append .nil

/-! ### Tables -/

theorem exposed?_of_head?_ne {ms : List Lexeme} (apart : ms.head? ≠ some asWord) :
    exposed? (.identifier name :: ms) = some name := by
  simp only [exposed?]
  split
  · exact if_neg fun same => apart (congrArg some same)
  · rfl

theorem exposed?_renamed (name other : String) (ms : List Lexeme) :
    exposed? (.identifier name :: asWord :: .identifier other :: ms) = some other := by
  simp only [exposed?, if_true]

def joinQualifiers (table : String) (l : Lookup) : List (List String) :=
  (if l.localField.toList.contains '.' then columnQualifiers l.localField else [[table]])
    ++ qualifiersOf (l.exposedAs :: namesOf l.foreignField)

/-- A join introduces the name its table is exposed under. -/
theorem mentions_joined (l : Lookup) :
    Mentions ([.fixed " LEFT OUTER JOIN ", .identifier l.fromTable]
      ++ (if l.exposedAs = l.fromTable then [] else [.fixed " AS ", .identifier l.exposedAs])
      ++ [.fixed " ON "]) [] [l.exposedAs] := by
  have join_ : lexemes? " LEFT OUTER JOIN " =
      some [.run .word "LEFT", .run .word "OUTER", .run .word "JOIN"] := by
    decide
  have on_ : lexemes? " ON " = some [.run .word "ON"] := by decide
  have as_ : lexemes? " AS " = some [asWord] := by decide
  have lexemes : ∀ n, lexemesFrom n ([.fixed " LEFT OUTER JOIN ", .identifier l.fromTable]
      ++ (if l.exposedAs = l.fromTable then [] else [.fixed " AS ", .identifier l.exposedAs])
      ++ [.fixed " ON "]) = [.run .word "LEFT", .run .word "OUTER", .run .word "JOIN",
        .identifier l.fromTable] ++ (if l.exposedAs = l.fromTable then []
          else [asWord, .identifier l.exposedAs]) ++ [.run .word "ON"] := by
    intro n
    split <;> simp [lexemesFrom, Part.lexemes, join_, on_, as_]
  refine ⟨fun n => ?_, fun n ms after => ?_, fun n ms => ?_⟩
  · rw [lexemes]
    simp
  · rw [lexemes]
    split <;> simp [Sql.qualifiers, asWord]
  · rw [lexemes]
    split
    · next same =>
      have plain : exposed? (.identifier l.fromTable :: .run .word "ON" :: ms) =
          some l.fromTable :=
        exposed?_of_head?_ne (by simp [asWord])
      simp [Sql.introduced, Lexeme.opensTable, plain, same]
    · have renamed := exposed?_renamed l.fromTable l.exposedAs (.run .word "ON" :: ms)
      rw [asWord] at renamed
      simp [Sql.introduced, Lexeme.opensTable, renamed, asWord]

theorem mentions_join (table : String) (l : Lookup) :
    Mentions (join table l) (joinQualifiers table l) [l.exposedAs] := by
  have here : Mentions ((if l.localField.toList.contains '.' then []
      else [.identifier table, .fixed "."]) ++ qualified l.localField)
      (if l.localField.toList.contains '.' then columnQualifiers l.localField else [[table]])
      [] := by
    split
    · exact .qualified l.localField
    · next plain =>
      rw [List.contains_iff_mem] at plain
      have single := Mentions.pointed table l.localField
      rw [namesOf_of_not_mem plain] at single
      exact single
  have equals := (Mentions.phrase " = " (by decide)).append
    (.pointed l.exposedAs l.foreignField)
  have whole := (mentions_joined l).append (here.append equals)
  simpa [join, joinQualifiers] using whole

def clauseWords : List String :=
  [" LEFT OUTER JOIN ", " WHERE ", " ORDER BY ", " LIMIT "]

theorem head_clausesOf {filter : List Part} (filtered : whereClause d.filter = .ok filter) :
    ∀ p ∈ (clausesOf d filter).head?, ∃ text ∈ clauseWords, p = .fixed text := by
  have leads : ∀ {text : String} {ps : List Part}, text ∈ clauseWords →
      ∀ p ∈ (Part.fixed text :: ps).head?, ∃ text ∈ clauseWords, p = .fixed text := by
    intro text ps listed p head
    exact ⟨text, listed, (Option.some.inj head).symm⟩
  refine forall_mem_head?_append ?_ (forall_mem_head?_append ?_ (forall_mem_head?_append ?_ ?_))
  · cases d.joins with
    | nil => simp
    | cons l ls => exact leads (by decide)
  · rcases whereClause_eq_ok filtered with ⟨_, rfl⟩ | ⟨p, qs, _, _, rfl⟩
    · simp
    · exact leads (by decide)
  · cases d.orderBy with
    | nil => simp [orderClause]
    | cons e es => exact leads (by decide)
  · cases d.limit with
    | none => simp [limitClause]
    | some l => exact leads (by decide)

/-- No clause starts with AS. -/
theorem head?_lexemesFrom_ne (leads : ∀ p ∈ ps.head?, ∃ text ∈ clauseWords, p = .fixed text) :
    (lexemesFrom n ps).head? ≠ some asWord := by
  rcases ps with _ | ⟨p, ps⟩
  · simp [lexemesFrom]
  · obtain ⟨text, listed, rfl⟩ := leads p rfl
    have words : ∀ text ∈ clauseWords,
        ∃ l ls, lexemes? text = some (l :: ls) ∧ l ≠ asWord := by
      simp only [clauseWords, List.forall_mem_cons]
      refine ⟨⟨.run .word "LEFT", [.run .word "OUTER", .run .word "JOIN"], ?_⟩,
        ⟨.run .word "WHERE", [], ?_⟩, ⟨.run .word "ORDER", [.run .word "BY"], ?_⟩,
        ⟨.run .word "LIMIT", [], ?_⟩, List.forall_mem_nil _⟩
      all_goals decide
    obtain ⟨l, ls, found, apart⟩ := words text listed
    simpa [lexemesFrom, Part.lexemes, found] using apart

/-- The qualifiers of a selection are those of its columns and its joins. -/
def selectQualifiers (d : Descriptor) : List (List String) :=
  d.included.flatMap columnQualifiers ++ (d.joins.flatMap (joinQualifiers d.table)
    ++ ((d.filterLeaves.filterMap Predicate.field?).flatMap columnQualifiers
      ++ (d.orderBy.map OrderElement.field).flatMap columnQualifiers))

/-- The clauses after the table mention its joins and the columns of the other clauses. -/
theorem mentions_clauses {filter : List Part} (filtered : whereClause d.filter = .ok filter) :
    Mentions (clausesOf d filter) (d.joins.flatMap (joinQualifiers d.table)
      ++ ((d.filterLeaves.filterMap Predicate.field?).flatMap columnQualifiers
        ++ (d.orderBy.map OrderElement.field).flatMap columnQualifiers))
      (d.joins.map Lookup.exposedAs) := by
  have joins : Mentions (d.joins.flatMap (join d.table)) (d.joins.flatMap (joinQualifiers d.table))
      (d.joins.map Lookup.exposedAs) :=
    .flatMap fun l _ => mentions_join d.table l
  have others := (mentions_order d.orderBy).append (mentions_limit d.limit)
  simpa [clausesOf] using joins.append ((mentions_where filtered).append others)

/-- A selection has these qualifiers and introduces its table and those of its joins. -/
theorem lexemes_select (h : select d = .ok ps) :
    qualifiers [] (lexemesFrom 1 ps) = selectQualifiers d ∧
      introduced (lexemesFrom 1 ps) = d.table :: d.joins.map Lookup.exposedAs := by
  obtain ⟨filter, filtered, rfl⟩ := select_eq_ok h
  have clauses := mentions_clauses filtered
  have marked : Mentions (if d.distinctOn.isSome then [.fixed "DISTINCT "] else []) [] [] := by
    split
    · exact .phrase _ (by decide)
    · exact .nil
  have front := (Mentions.phrase "SELECT " (by decide)).append
    (marked.append (mentions_selectList (d := d)))
  have from_ : lexemes? " FROM " = some [.run .word "FROM"] := by decide
  have lexemes : ∀ n, lexemesFrom n (.fixed " FROM " :: .identifier d.table :: clausesOf d filter) =
      .run .word "FROM" :: .identifier d.table :: lexemesFrom n (clausesOf d filter) := by
    intro n
    simp [lexemesFrom, Part.lexemes, Part.values, from_]
  rw [← List.append_assoc, ← List.cons_append, ← List.singleton_append, lexemesFrom_append, lexemes]
  generalize 1 + _ = n
  constructor
  · have rest := clauses.qualifiers n [] (by simp)
    rw [List.append_nil] at rest
    rw [front.qualifiers _ _ (by simp), qualifiers, qualifiers, if_neg (clauses.starts n),
      if_pos rfl, rest]
    simp [selectQualifiers, qualifiers]
  · have rest := clauses.introduced n []
    rw [List.append_nil] at rest
    have apart := head?_lexemesFrom_ne (n := n) (head_clausesOf filtered)
    rw [front.introduced, introduced, exposed?_of_head?_ne apart, introduced, rest]
    simp [introduced, Lexeme.opensTable]

/-! ### Qualifiers in scope -/

theorem segments_append_point {cs ds : List Char} (last : '.' ∉ ds) :
    segments (cs ++ '.' :: ds) = segments cs ++ [ds] := by
  induction cs with
  | nil =>
    have first : segments ('.' :: ds) = [] :: segments ds := rfl
    rw [List.nil_append, first, segments_of_not_mem last]
    rfl
  | cons c cs ih =>
    obtain ⟨first, others, split, _⟩ := segments_eq cs
    rw [split] at ih
    by_cases point : c = '.'
    · rw [List.cons_append, segments, if_pos point, ih, segments, if_pos point, split]
      rfl
    · rw [List.cons_append, segments, if_neg point, ih, segments, if_neg point, split]
      rfl

theorem namesOf_eq_of_isQualifiedBy {qualifier : String} (h : IsQualifiedBy name qualifier) :
    ∃ column, namesOf name = namesOf qualifier ++ [column] := by
  obtain ⟨column, rfl, last⟩ := h
  have text : (qualifier ++ "." ++ column).toList = qualifier.toList ++ '.' :: column.toList := by
    simp
  refine ⟨column, ?_⟩
  rw [namesOf, text, segments_append_point last, List.map_append, List.map_singleton,
    String.ofList_toList, namesOf]

theorem columnQualifiers_of_not_mem (h : '.' ∉ name.toList) : columnQualifiers name = [] := by
  rw [columnQualifiers, namesOf_of_not_mem h]
  rfl

theorem exists_isQualifiedBy (h : '.' ∈ name.toList) :
    ∃ qualifier, IsQualifiedBy name qualifier := by
  obtain ⟨after, before, split, last⟩ := List.eq_append_cons_of_mem (List.mem_reverse.mpr h)
  have text := congrArg List.reverse split
  rw [List.reverse_reverse, List.reverse_append, List.reverse_cons] at text
  refine ⟨String.ofList before.reverse, String.ofList after.reverse, ?_, ?_⟩
  · apply String.toList_inj.mp
    simp [text]
  · simpa using last

/-- The qualifier of a column is the names of what stands before its last point. -/
theorem mem_columnQualifiers_iff {x : List String} :
    x ∈ columnQualifiers name ↔
      ∃ qualifier, IsQualifiedBy name qualifier ∧ x = namesOf qualifier := by
  have known : ∀ qualifier, IsQualifiedBy name qualifier →
      columnQualifiers name = [namesOf qualifier] := by
    intro qualifier qualified
    obtain ⟨column, names⟩ := namesOf_eq_of_isQualifiedBy qualified
    obtain ⟨first, others, split⟩ := exists_namesOf qualifier
    rw [columnQualifiers, qualifiersOf, names, List.dropLast_concat, if_neg (by simp [split])]
  constructor
  · intro h
    by_cases point : '.' ∈ name.toList
    · obtain ⟨qualifier, qualified⟩ := exists_isQualifiedBy point
      rw [known qualifier qualified] at h
      exact ⟨qualifier, qualified, List.mem_singleton.mp h⟩
    · rw [columnQualifiers_of_not_mem point] at h
      cases h
  · rintro ⟨qualifier, qualified, rfl⟩
    rw [known qualifier qualified]
    exact List.mem_singleton_self _

theorem namesOf_eq_singleton_iff {t : String} :
    namesOf name = [t] ↔ '.' ∉ name.toList ∧ t = name := by
  constructor
  · intro single
    by_cases point : '.' ∈ name.toList
    · obtain ⟨qualifier, qualified⟩ := exists_isQualifiedBy point
      obtain ⟨column, names⟩ := namesOf_eq_of_isQualifiedBy qualified
      obtain ⟨first, others, split⟩ := exists_namesOf qualifier
      rw [single, split] at names
      simp at names
    · rw [namesOf_of_not_mem point] at single
      exact ⟨point, (List.singleton_inj.mp single).symm⟩
  · rintro ⟨point, rfl⟩
    exact namesOf_of_not_mem point

/-- A join qualifies its local field, unless that is qualified already, and the field that it looks
up. -/
theorem mem_joinQualifiers_iff {table : String} {l : Lookup} {x : List String}
    (plain : '.' ∉ l.foreignField.toList) :
    x ∈ joinQualifiers table l ↔ x ∈ columnQualifiers l.localField ∨
      x = [l.exposedAs] ∨ ('.' ∉ l.localField.toList ∧ x = [table]) := by
  have foreign : qualifiersOf (l.exposedAs :: namesOf l.foreignField) = [[l.exposedAs]] := by
    rw [namesOf_of_not_mem plain]
    rfl
  rw [joinQualifiers, foreign, List.mem_append]
  by_cases point : '.' ∈ l.localField.toList
  · simp [point]
  · simp [point, columnQualifiers_of_not_mem point, or_comm]

/-- Where the fields that joins look up have no points, the qualifiers of a selection are those of
its columns, its table where a join needs it, and the names of the joined tables. -/
theorem mem_selectQualifiers_iff {x : List String}
    (plain : ∀ l ∈ d.joins, '.' ∉ l.foreignField.toList) :
    x ∈ selectQualifiers d ↔ (∃ column ∈ d.allColumnNames, x ∈ columnQualifiers column) ∨
      ∃ l ∈ d.joins, x = [l.exposedAs] ∨ ('.' ∉ l.localField.toList ∧ x = [d.table]) := by
  have joins : x ∈ d.joins.flatMap (joinQualifiers d.table) ↔
      x ∈ (d.joins.map Lookup.localField).flatMap columnQualifiers ∨
        ∃ l ∈ d.joins, x = [l.exposedAs] ∨ ('.' ∉ l.localField.toList ∧ x = [d.table]) := by
    rw [List.flatMap_map, List.mem_flatMap, List.mem_flatMap]
    constructor
    · rintro ⟨l, listed, here⟩
      rcases (mem_joinQualifiers_iff (plain l listed)).mp here with own | other
      · exact .inl ⟨l, listed, own⟩
      · exact .inr ⟨l, listed, other⟩
    · rintro (⟨l, listed, own⟩ | ⟨l, listed, other⟩)
      · exact ⟨l, listed, (mem_joinQualifiers_iff (plain l listed)).mpr (.inl own)⟩
      · exact ⟨l, listed, (mem_joinQualifiers_iff (plain l listed)).mpr (.inr other)⟩
  rw [← List.mem_flatMap, Descriptor.allColumnNames, Descriptor.columnNames, selectQualifiers]
  simp only [List.flatMap_append, List.mem_append, joins, or_assoc, or_left_comm, or_comm]

/-- The qualifiers of a selection are in scope exactly if the qualifier of each column is, without a
point, one of the names under which the selection can refer to its tables. -/
theorem inScope_select_iff (h : select d = .ok ps)
    (plain : ∀ l ∈ d.joins, '.' ∉ l.foreignField.toList) :
    InScope (lexemesFrom 1 ps) ↔ ∀ column ∈ d.allColumnNames, ∀ qualifier,
      IsQualifiedBy column qualifier → '.' ∉ qualifier.toList ∧ qualifier ∈ d.scope := by
  obtain ⟨found, tables⟩ := lexemes_select h
  simp only [InScope, found, tables, mem_selectQualifiers_iff plain, mem_columnQualifiers_iff]
  constructor
  · intro inside column listed qualifier qualified
    obtain ⟨t, known, single⟩ := inside _ (.inl ⟨column, listed, qualifier, qualified, rfl⟩)
    obtain ⟨point, rfl⟩ := namesOf_eq_singleton_iff.mp single
    exact ⟨point, known⟩
  · rintro inside x (⟨column, listed, qualifier, qualified, rfl⟩ | ⟨l, listed, rfl | ⟨_, rfl⟩⟩)
    · obtain ⟨point, known⟩ := inside column listed qualifier qualified
      exact ⟨qualifier, known, namesOf_eq_singleton_iff.mpr ⟨point, rfl⟩⟩
    · exact ⟨_, List.mem_cons_of_mem _ (List.mem_map_of_mem listed), rfl⟩
    · exact ⟨_, List.mem_cons_self, rfl⟩

end Sql

end SqlBridge
