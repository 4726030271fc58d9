import SqlBridge.Proofs.Descriptor.Failure
import SqlBridge.Proofs.Sql.Rendered
import SqlBridge.Proofs.Sql.Spacing
import SqlBridge.Proofs.Sql.Tokens

/-!
# Text and values of a query

Whatever the strings and the predicate of a descriptor are, its rendered text can be scanned: every
identifier in it is a name of the descriptor or a segment of one, and apart from the numbers of the
limit everything else are keywords, signs, marks and parameters. The parameters are counted up from
one, and their values are those of the fields and of the leaves of the filter in order.
-/

namespace SqlBridge

/-- The value a comparison or a pattern compares with, unless it is null. -/
def Predicate.operand? : Predicate → Option Value
  | .comparison _ _ v => if v.isNull then none else some v
  | .pattern _ regex _ => some (.str regex)
  | .group _ _ => none

def Lookup.names (l : Lookup) : List String :=
  [l.fromTable, l.localField, l.foreignField, l.exposedAs]

namespace Descriptor

/-- The names in a descriptor: of tables, columns, aliases and procedures. -/
def names (d : Descriptor) : List String :=
  d.table :: (d.procedureName.toList ++ d.fields.keys ++ d.included ++ d.aliases.keys
    ++ d.filterLeaves.filterMap Predicate.field? ++ d.orderBy.map OrderElement.field
    ++ d.joins.flatMap Lookup.names)

/-- The numbers in a descriptor, as they are written. -/
def numbers (d : Descriptor) : List String :=
  d.limit.elim [] fun l => [l.count.toNat.repr, l.offset.toNat.repr]

/-- The values of the fields, if statements of the kind have fields. -/
def fieldOperands (d : Descriptor) : List Value :=
  match d.kind with
  | .insert | .update | .procedure => d.fields.values.filter fun v => !v.isNull
  | .select | .command | .delete => []

/-- The values in the filter from left to right, if statements of the kind have a filter. -/
def filterOperands (d : Descriptor) : List Value :=
  match d.kind with
  | .select | .command | .update | .delete => d.filterLeaves.filterMap Predicate.operand?
  | .insert | .procedure => []

end Descriptor

namespace Sql

open Token (pointed)

/-- The text between two points of a name, or between a point and an end of it. -/
def IsSegment (segment name : String) : Prop :=
  '.' ∉ segment.toList ∧ ∃ before after,
    name.toList = before ++ (segment.toList ++ after) ∧
      (before = [] ∨ before.getLast? = some '.') ∧ (after = [] ∨ after.head? = some '.')

/-- A name of the descriptor or a segment of one. -/
def IsNameOf (d : Descriptor) (name : String) : Prop :=
  name ∈ d.names ∨ ∃ whole ∈ d.names, IsSegment name whole

/-- What may stand in the text of a descriptor. -/
def Lexeme.Of (d : Descriptor) : Lexeme → Prop
  | .identifier name => IsNameOf d name
  | .run .word text => text ∈ keywords
  | .run .sign text => text ∈ signs
  | .run .number text => text ∈ d.numbers
  | .run .param _ => True
  | .mark c => isMark c = true

/-- The text of a query is these lexemes of the descriptor, the parameters in it are counted up to
the number of its values, and the values are those of the descriptor. -/
structure Corresponds (d : Descriptor) (q : Query) (ls : List Lexeme) : Prop where
  scanned : lexemes? q.text = some ls
  known : ∀ l ∈ ls, l.Of d
  numbered : ls.filterMap Lexeme.param? = (List.range' 1 q.params.length).map Nat.repr
  values : q.params = d.fieldOperands ++ d.filterOperands

/-- What may be written for a descriptor: phrases, its numbers, its names and any parameters. -/
def Part.Of (d : Descriptor) : Part → Prop
  | .fixed text => isPhrase text = true ∨ text ∈ d.numbers
  | .identifier name => IsNameOf d name
  | .param _ => True

/-- Parts that stay apart, may be written for the descriptor and have these values. -/
structure Writes (d : Descriptor) (ps : List Part) (vs : List Value) : Prop where
  apart : KeptApart ps
  known : ∀ p ∈ ps, p.Of d
  values : paramsOf ps = vs

/-- A clause sets itself apart from what stands before it. -/
structure Clause (d : Descriptor) (ps : List Part) (vs : List Value) : Prop
    extends Writes d ps vs where
  leads : ∀ p ∈ ps.head?, p.isApart = true

/-- A phrase that is open. -/
def isOpener (text : String) : Bool :=
  isPhrase text && (Part.fixed text).isOpen

/-- A phrase that sets itself apart from what stands before it. -/
def isCloser (text : String) : Bool :=
  isPhrase text && (Part.fixed text).isApart

/-- A phrase that sets what stands before it apart from what stands after it. -/
def isSeparator (text : String) : Bool :=
  isCloser text && isOpener text

variable {d : Descriptor} {ps qs : List Part} {vs ws : List Value} {text name : String}

/-! ### Parts in a row -/

/-- What is said of the first part of two rows is said of the first part of both together. -/
theorem forall_mem_head?_append {P : Part → Prop} (first : ∀ p ∈ ps.head?, P p)
    (second : ∀ q ∈ qs.head?, P q) : ∀ p ∈ (ps ++ qs).head?, P p := by
  cases ps with
  | nil => exact second
  | cons p ps => exact first

namespace Writes

theorem nil : Writes d [] [] :=
  ⟨.nil, by simp, rfl⟩

theorem identifier (h : IsNameOf d name) : Writes d [.identifier name] [] :=
  ⟨.singleton _, by simpa [Part.Of] using h, rfl⟩

theorem param (v : Value) : Writes d [.param v] [v] :=
  ⟨.singleton _, by simp [Part.Of], rfl⟩

theorem phrase (text : String) (h : isPhrase text = true) : Writes d [.fixed text] [] :=
  ⟨.singleton _, by simp [Part.Of, h], rfl⟩

theorem append (first : Writes d ps vs) (second : Writes d qs ws)
    (between : (∀ p ∈ ps.getLast?, p.isOpen = true) ∨ ∀ q ∈ qs.head?, q.isApart = true) :
    Writes d (ps ++ qs) (vs ++ ws) := by
  refine ⟨?_, List.forall_mem_append.mpr ⟨first.known, second.known⟩, ?_⟩
  · refine List.isChain_append.mpr ⟨first.apart, second.apart, fun p last q head => ?_⟩
    exact between.imp (fun opened => opened p last) fun apart => apart q head
  · rw [paramsOf_append, first.values, second.values]

/-- What stands after an open phrase. -/
theorem after (text : String) (opener : isOpener text = true) (h : Writes d ps vs) :
    Writes d (.fixed text :: ps) vs := by
  obtain ⟨is_phrase, opened⟩ := Bool.and_eq_true_iff.mp opener
  exact append (phrase text is_phrase) h (.inl fun p last => Option.some.inj last ▸ opened)

/-- What stands before a clause. -/
theorem clause (first : Writes d ps vs) (second : Clause d qs ws) :
    Writes d (ps ++ qs) (vs ++ ws) :=
  first.append second.toWrites (.inr second.leads)

end Writes

namespace Clause

theorem nil : Clause d [] [] :=
  ⟨.nil, by simp⟩

theorem phrase (text : String) (closer : isCloser text = true) : Clause d [.fixed text] [] := by
  obtain ⟨is_phrase, apart⟩ := Bool.and_eq_true_iff.mp closer
  exact ⟨.phrase text is_phrase, fun p head => Option.some.inj head ▸ apart⟩

/-- A clause that starts with a phrase. -/
theorem opening (text : String) (separator : isSeparator text = true) (h : Writes d ps vs) :
    Clause d (.fixed text :: ps) vs := by
  obtain ⟨closer, opener⟩ := Bool.and_eq_true_iff.mp separator
  exact ⟨.after text opener h, (phrase (d := d) text closer).leads⟩

theorem append (first : Clause d ps vs) (second : Clause d qs ws) :
    Clause d (ps ++ qs) (vs ++ ws) :=
  ⟨first.toWrites.clause second, forall_mem_head?_append first.leads second.leads⟩

theorem flatMap {α : Type} {f : α → List Part} {as : List α}
    (each : ∀ a ∈ as, Clause d (f a) []) : Clause d (as.flatMap f) [] := by
  induction as with
  | nil => exact nil
  | cons a as ih =>
    obtain ⟨first, others⟩ := List.forall_mem_cons.mp each
    exact append first (ih others)

end Clause

/-- A separator stands between clauses and sets them apart. -/
theorem Writes.separatedBy {separator : String} (between : isSeparator separator = true)
    {pss : List (List Part)} {vss : List (List Value)} (each : List.Forall₂ (Writes d) pss vss) :
    Writes d (separatedBy separator pss) vss.flatten := by
  induction each with
  | nil => exact .nil
  | @cons ps vs pss vss first others ih =>
    cases others with
    | nil =>
      rw [List.flatten_cons, List.flatten_nil, List.append_nil]
      exact first
    | cons second others => exact first.clause (.opening separator between ih)

theorem Writes.separatedBy_map {α : Type} {separator : String}
    (between : isSeparator separator = true) {f : α → List Part} {as : List α}
    (each : ∀ a ∈ as, Writes d (f a) []) : Writes d (Sql.separatedBy separator (as.map f)) [] := by
  have related : List.Forall₂ (Writes d) (as.map f) (as.map fun _ => []) := by
    rw [List.forall₂_map_left_iff, List.forall₂_map_right_iff, List.forall₂_same]
    exact each
  have nothing : (as.map fun _ => ([] : List Value)).flatten = [] := by
    simp
  rw [← nothing]
  exact .separatedBy between related

/-! ### Names and values -/

/-- The segments of a name stand between its points. -/
theorem isSegment_of_mem_segments {s : List Char} (h : s ∈ segments name.toList) :
    IsSegment (String.ofList s) name := by
  have pointed_head : ∀ parts : List (List Char),
      pointed parts = [] ∨ (pointed parts).head? = some '.' := by
    rintro (_ | ⟨part, parts⟩)
    · exact .inl rfl
    · exact .inr rfl
  rw [IsSegment, String.toList_ofList]
  refine ⟨point_not_mem_of_mem_segments h, ?_⟩
  obtain ⟨first, others, split, same⟩ := segments_eq name.toList
  rw [split] at h
  rcases List.mem_cons.mp h with rfl | h
  · exact ⟨[], pointed others, same, .inl rfl, pointed_head others⟩
  · obtain ⟨before, after, rfl⟩ := List.append_of_mem h
    refine ⟨first ++ (pointed before ++ ['.']), pointed after, ?_, .inr ?_, pointed_head after⟩
    · rw [same]
      simp [pointed]
    · simp

theorem Writes.qualified (h : name ∈ d.names) : Writes d (qualified name) [] := by
  refine .separatedBy_map (by decide) fun s listed => .identifier (.inr ?_)
  exact ⟨name, h, isSegment_of_mem_segments listed⟩

theorem writes_value {v : Value} (h : value v = .ok ps) :
    Writes d ps (if v.isNull then [] else [v]) := by
  rcases value_eq_ok h with ⟨null, rfl⟩ | ⟨given, rfl⟩
  · rw [if_pos null]
    exact .phrase _ (by decide)
  · rw [given]
    exact .param v

/-- The values that are written for a list of values are those that are not null. -/
theorem flatten_operands (vs : List Value) :
    (vs.map fun v => if v.isNull then [] else [v]).flatten = vs.filter fun v => !v.isNull := by
  induction vs with
  | nil => rfl
  | cons v vs ih => cases null : v.isNull <;> simp [null, ih]

/-! ### Predicates -/

theorem clause_comparedWith {field : String} {operator : Operator} {v : Value}
    (h : comparedWith field operator v = .ok ps) : Clause d ps (if v.isNull then [] else [v]) := by
  rcases comparedWith_eq_ok h with ⟨null, text, listed, rfl⟩ | ⟨given, rfl⟩
  · have closers : ∀ text ∈ [" IS NULL", " IS NOT NULL"], isCloser text = true := by decide
    rw [if_pos null]
    exact .phrase text (closers text listed)
  · have between : isSeparator (" " ++ operator.symbol ++ " ") = true := by
      cases operator <;> decide
    rw [given]
    exact .opening _ between (.param v)

/-- What is written in parentheses. -/
theorem Writes.inParentheses (h : Writes d ps vs) :
    Writes d (.fixed "(" :: ps ++ [.fixed ")"]) vs := by
  have closed := (h.after "(" (by decide)).clause (.phrase ")" (by decide))
  rwa [List.append_nil] at closed

mutual

/-- A predicate is written with the values of its leaves. -/
theorem writes_predicate : ∀ (p : Predicate) {ps : List Part}, predicate p = .ok ps →
    (∀ name ∈ p.leaves.filterMap Predicate.field?, name ∈ d.names) →
      Writes d ps (p.leaves.filterMap Predicate.operand?)
  | .comparison field operator v, _, h, named => by
    obtain ⟨rest, compared, rfl⟩ := comparison_eq_ok h
    have listed : field ∈ d.names := named field (by simp [Predicate.field?])
    have inner := (Writes.qualified listed).clause (clause_comparedWith compared)
    cases null : v.isNull <;> simpa [Predicate.operand?, null] using inner.inParentheses
  | .pattern field regex caseInsensitive, _, h, named => by
    obtain ⟨text, listed, rfl⟩ := pattern_eq_ok h
    have separators : ∀ text ∈ [" ~ ", " ~* "], isSeparator text = true := by decide
    have known : field ∈ d.names := named field (by simp [Predicate.field?])
    have rest := Clause.opening text (separators text listed) (.param (d := d) (.str regex))
    simpa [Predicate.operand?] using ((Writes.qualified known).clause rest).inParentheses
  | .group logic children, _, h, named => by
    obtain ⟨inner, written, rfl⟩ := group_eq_ok h
    have between : isSeparator (connective logic) = true := by
      cases logic <;> decide
    rw [Predicate.leaves] at named ⊢
    obtain ⟨vss, each, same⟩ := writes_predicates children written named
    rw [same]
    exact (Writes.separatedBy between each).inParentheses

theorem writes_predicates : ∀ (ps : List Predicate) {pss : List (List Part)},
    predicates ps = .ok pss →
    (∀ name ∈ (Predicate.leavesOf ps).filterMap Predicate.field?, name ∈ d.names) →
      ∃ vss, List.Forall₂ (Writes d) pss vss ∧
        (Predicate.leavesOf ps).filterMap Predicate.operand? = vss.flatten
  | [], _, h, _ => by
    obtain rfl := Except.ok.inj h
    exact ⟨[], .nil, rfl⟩
  | p :: rest, _, h, named => by
    obtain ⟨first, others, here, later, rfl⟩ := predicates_cons_eq_ok h
    rw [Predicate.leavesOf, List.filterMap_append, List.forall_mem_append] at named
    obtain ⟨vss, each, same⟩ := writes_predicates rest later named.2
    refine ⟨_, .cons (writes_predicate p here named.1) each, ?_⟩
    rw [Predicate.leavesOf, List.filterMap_append, same, List.flatten_cons]

end

/-! ### Clauses -/

theorem Writes.listed (h : name ∈ d.names) : Writes d [.identifier name] [] :=
  .identifier (.inl h)

theorem mem_names : name ∈ d.names ↔ name = d.table ∨ name ∈ d.procedureName.toList ∨
    name ∈ d.fields.keys ∨ name ∈ d.included ∨ name ∈ d.aliases.keys ∨
      name ∈ d.filterLeaves.filterMap Predicate.field? ∨ name ∈ d.orderBy.map OrderElement.field ∨
        name ∈ d.joins.flatMap Lookup.names := by
  simp only [Descriptor.names, List.mem_cons, List.mem_append, or_assoc]

theorem table_mem_names : d.table ∈ d.names :=
  List.mem_cons_self

theorem clause_where (h : whereClause d.filter = .ok ps) :
    Clause d ps (d.filterLeaves.filterMap Predicate.operand?) := by
  have named : ∀ name ∈ d.filterLeaves.filterMap Predicate.field?, name ∈ d.names :=
    fun name listed => mem_names.mpr (by simp only [listed, true_or, or_true])
  rw [Descriptor.filterLeaves] at named ⊢
  rcases whereClause_eq_ok h with ⟨none, rfl⟩ | ⟨p, qs, filtered, written, rfl⟩
  · rw [none]
    exact .nil
  · rw [filtered] at named ⊢
    exact .opening _ (by decide) (writes_predicate p written named)

theorem writes_selectItem {column : String} (listed : column ∈ d.included) :
    Writes d (selectItem d column) [] := by
  have named : column ∈ d.names := mem_names.mpr (by simp only [listed, true_or, or_true])
  have written := Writes.qualified named
  rw [selectItem]
  cases found : d.aliasOf? column with
  | none => exact written.clause .nil
  | some other =>
    obtain ⟨e, entry, rfl⟩ := Option.map_eq_some_iff.mp found
    have key : e.1 ∈ d.aliases.keys := List.mem_map_of_mem (List.mem_of_find?_eq_some entry)
    have known : e.1 ∈ d.names := mem_names.mpr (by simp only [key, true_or, or_true])
    exact written.clause (.opening " AS " (by decide) (.listed known))

theorem writes_selectList : Writes d (selectList d) [] := by
  rw [selectList]
  split
  · exact .phrase _ (by decide)
  · exact .separatedBy_map (by decide) fun column => writes_selectItem

theorem clause_join {l : Lookup} (listed : l ∈ d.joins) : Clause d (join d.table l) [] := by
  have known : ∀ name ∈ l.names, name ∈ d.names := by
    intro name here
    have joined : name ∈ d.joins.flatMap Lookup.names := List.mem_flatMap.mpr ⟨l, listed, here⟩
    exact mem_names.mpr (by simp only [joined, or_true])
  obtain ⟨fromTable, localField, foreignField, exposedAs, _⟩ :
      l.fromTable ∈ d.names ∧ l.localField ∈ d.names ∧ l.foreignField ∈ d.names ∧
        l.exposedAs ∈ d.names ∧ True := by
    simpa [Lookup.names] using known
  have renamed : Clause d (if l.exposedAs = l.fromTable then []
      else [.fixed " AS ", .identifier l.exposedAs]) [] := by
    split
    · exact .nil
    · exact .opening _ (by decide) (.listed exposedAs)
  have point : ∀ {qualifier name : String}, qualifier ∈ d.names → name ∈ d.names →
      Writes d (.identifier qualifier :: .fixed "." :: qualified name) [] := by
    intro qualifier name first second
    exact (Writes.listed first).clause (.opening _ (by decide) (.qualified second))
  have here : Writes d ((if l.localField.toList.contains '.' then []
      else [.identifier d.table, .fixed "."]) ++ qualified l.localField) [] := by
    split
    · exact .qualified localField
    · exact point table_mem_names localField
  have equals := Clause.opening " = " (by decide) (point exposedAs foreignField)
  have on_ := Clause.opening " ON " (by decide) (here.clause equals)
  have whole := Clause.opening " LEFT OUTER JOIN " (by decide)
    (((Writes.listed fromTable).clause renamed).clause on_)
  simpa [join] using whole

theorem clause_order : Clause d (orderClause d.orderBy) [] := by
  have each : ∀ e ∈ d.orderBy, Writes d (orderItem e) [] := by
    intro e listed
    have field : e.field ∈ d.orderBy.map OrderElement.field := List.mem_map_of_mem listed
    have named : e.field ∈ d.names := mem_names.mpr (by simp only [field, true_or, or_true])
    refine (Writes.qualified named).clause (.phrase _ ?_)
    cases e.direction <;> decide
  rw [orderClause]
  split
  · exact .nil
  · exact .opening _ (by decide) (.separatedBy_map (by decide) each)

theorem clause_limit : Clause d (limitClause d.limit) [] := by
  cases limited : d.limit with
  | none => exact .nil
  | some l =>
    rw [limitClause]
    have number : ∀ {text : String}, text = l.count.toNat.repr ∨ text = l.offset.toNat.repr →
        Writes d [.fixed text] [] := by
      intro text written
      have known : text ∈ d.numbers := by simpa [Descriptor.numbers, limited] using written
      exact ⟨.singleton _, by simp [Part.Of, known], rfl⟩
    have count := Clause.opening " LIMIT " (by decide) (number (.inl rfl))
    have offset := Clause.opening " OFFSET " (by decide) (number (.inr rfl))
    split
    · exact count.append offset
    · exact count.append .nil

/-! ### Statements -/

theorem writes_select (h : select d = .ok ps) :
    Writes d ps (d.filterLeaves.filterMap Predicate.operand?) := by
  obtain ⟨filter, filtered, rfl⟩ := select_eq_ok h
  have joins : Clause d (d.joins.flatMap (join d.table)) [] := .flatMap fun l => clause_join
  have clauses : Clause d (clausesOf d filter) (d.filterLeaves.filterMap Predicate.operand?) := by
    have others := (clause_where filtered).append (clause_order.append clause_limit)
    simpa [clausesOf] using joins.append others
  have from_ := Clause.opening " FROM " (by decide)
    ((Writes.listed table_mem_names).clause clauses)
  have list := writes_selectList.clause from_
  refine Writes.after _ (by decide) ?_
  split
  · exact list.after "DISTINCT " (by decide)
  · exact list

/-- What is written for a list of things with a value each. -/
theorem writes_mapM {α : Type} {f : α → Except Error (List Part)} {g : α → Value} {as : List α}
    {pss : List (List Part)} (h : as.mapM f = .ok pss)
    (each : ∀ a ∈ as, ∀ ps, f a = .ok ps → Writes d ps (if (g a).isNull then [] else [g a])) :
    Writes d (separatedBy ", " pss) ((as.map g).filter fun v => !v.isNull) := by
  have related :
      List.Forall₂ (Writes d) pss (as.map fun a => if (g a).isNull then [] else [g a]) := by
    rw [List.forall₂_map_right_iff]
    have results := forall₂_of_mapM h
    clear h
    induction results with
    | nil => exact .nil
    | cons here _ ih =>
      obtain ⟨first, others⟩ := List.forall_mem_cons.mp each
      exact .cons (first _ here) (ih others)
  have values := flatten_operands (as.map g)
  rw [List.map_map] at values
  rw [← values]
  exact .separatedBy (by decide) related

theorem writes_values {pss : List (List Part)} (h : vs.mapM value = .ok pss) :
    Writes d (separatedBy ", " pss) (vs.filter fun v => !v.isNull) := by
  have written := writes_mapM (d := d) (g := id) h fun v _ ps => writes_value
  rwa [List.map_id] at written

theorem field_mem_names (h : name ∈ d.fields.keys) : name ∈ d.names :=
  mem_names.mpr (by simp only [h, true_or, or_true])

theorem writes_insert (h : insert d = .ok ps) :
    Writes d ps (d.fields.values.filter fun v => !v.isNull) := by
  rw [insert] at h
  split at h
  · cases h
  · obtain ⟨values, written, h⟩ := exists_of_bind_eq_ok h
    obtain rfl := Except.ok.inj h
    have columns : Writes d (separatedBy ", " (d.fields.keys.map fun column =>
        [.identifier column])) [] :=
      .separatedBy_map (by decide) fun column listed => .listed (field_mem_names listed)
    have ignored : Clause d (if d.ignoreOnConflict then [.fixed " ON CONFLICT DO NOTHING"] else [])
        [] := by
      split
      · exact .phrase _ (by decide)
      · exact .nil
    have row := ((writes_values (d := d) written).clause (.phrase ")" (by decide))).clause
      ignored
    have into := columns.clause (.opening ") VALUES (" (by decide) row)
    have named := (Writes.listed table_mem_names).clause
      (.opening " (" (by decide) into)
    simpa using named.after "INSERT INTO " (by decide)

theorem writes_update (h : update d = .ok ps) :
    Writes d ps ((d.fields.values.filter fun v => !v.isNull) ++
      d.filterLeaves.filterMap Predicate.operand?) := by
  rw [update] at h
  split at h
  · cases h
  · obtain ⟨assignments, written, h⟩ := exists_of_bind_eq_ok h
    obtain ⟨filter, filtered, h⟩ := exists_of_bind_eq_ok h
    obtain rfl := Except.ok.inj h
    have assigned : Writes d (separatedBy ", " assignments)
        (d.fields.values.filter fun v => !v.isNull) := by
      refine writes_mapM written fun e listed qs h => ?_
      obtain ⟨value, given, rfl⟩ := exists_of_map_eq_ok h
      have key : e.1 ∈ d.fields.keys := List.mem_map_of_mem listed
      exact (Writes.listed (field_mem_names key)).clause
        (.opening _ (by decide) (writes_value given))
    have set_ := Clause.opening " SET " (by decide)
      (assigned.clause (clause_where filtered))
    simpa using ((Writes.listed table_mem_names).clause set_).after "UPDATE " (by decide)

theorem writes_delete (h : delete d = .ok ps) :
    Writes d ps (d.filterLeaves.filterMap Predicate.operand?) := by
  rw [delete] at h
  obtain ⟨filter, filtered, h⟩ := exists_of_bind_eq_ok h
  obtain rfl := Except.ok.inj h
  have named := (Writes.listed table_mem_names).clause (clause_where filtered)
  simpa using named.after "DELETE FROM " (by decide)

theorem writes_procedure (h : procedure d = .ok ps) :
    Writes d ps (d.fields.values.filter fun v => !v.isNull) := by
  rw [procedure] at h
  split at h
  · cases h
  · next name called =>
    obtain ⟨values, written, h⟩ := exists_of_bind_eq_ok h
    obtain rfl := Except.ok.inj h
    have known : name ∈ d.names := mem_names.mpr (by simp [called])
    have passed := (writes_values (d := d) written).clause (.phrase ")" (by decide))
    have arguments := (Writes.qualified known).clause
      (.opening "(" (by decide) passed)
    simpa using arguments.after "CALL " (by decide)

/-- The parts of a descriptor stay apart and have the values of its fields and its filter. -/
theorem writes_parts (h : parts d = .ok ps) :
    Writes d ps (d.fieldOperands ++ d.filterOperands) := by
  rw [parts] at h
  rw [Descriptor.fieldOperands, Descriptor.filterOperands]
  cases kind : d.kind with
  | select | command =>
    rw [kind] at h
    exact writes_select h
  | insert =>
    rw [kind] at h
    simpa using writes_insert h
  | update =>
    rw [kind] at h
    exact writes_update h
  | delete =>
    rw [kind] at h
    exact writes_delete h
  | procedure =>
    rw [kind] at h
    simpa using writes_procedure h

/-! ### The text -/

theorem exists_repr_of_mem_numbers (h : text ∈ d.numbers) : ∃ n : Nat, text = n.repr := by
  rw [Descriptor.numbers] at h
  cases limited : d.limit with
  | none =>
    rw [limited] at h
    cases h
  | some l =>
    simp only [limited, Option.elim_some, List.mem_cons, List.not_mem_nil, or_false] at h
    rcases h with rfl | rfl
    · exact ⟨_, rfl⟩
    · exact ⟨_, rfl⟩

theorem Part.Of.plain {p : Part} (h : p.Of d) : p.Plain := by
  cases p with
  | fixed text => exact h.imp_right exists_repr_of_mem_numbers
  | identifier name => trivial
  | param value => trivial

theorem of_isFixed {l : Lexeme} (h : l.isFixed = true) : l.Of d := by
  cases l with
  | identifier name => cases h
  | mark c => exact h
  | run kind text =>
    cases kind with
    | word => exact List.contains_iff_mem.mp h
    | sign => exact List.contains_iff_mem.mp h
    | number => cases h
    | param => cases h

/-- The lexemes of a part that may be written may stand in the text. -/
theorem Part.Of.lexemes {p : Part} (h : p.Of d) {n : Nat} : ∀ l ∈ p.lexemes n, l.Of d := by
  cases p with
  | fixed text =>
    rcases h with phrase | listed
    · obtain ⟨ls, found, fixed⟩ := phrase_lexemes phrase
      rw [Part.lexemes, found, Option.getD_some]
      exact fun l listed => of_isFixed (fixed l listed)
    · obtain ⟨k, rfl⟩ := exists_repr_of_mem_numbers listed
      rw [Part.lexemes, lexemes?_repr, Option.getD_some, List.forall_mem_singleton]
      exact listed
  | identifier name => exact List.forall_mem_singleton.mpr h
  | param value => exact List.forall_mem_singleton.mpr trivial

/-- The text of parts that stay apart is their lexemes. -/
theorem Writes.scanned (h : Writes d ps vs) :
    (Draft.write ps).Scanned (lexemesFrom 1 ps) :=
  Draft.scanned_write h.apart fun p listed => (h.known p listed).plain

/-- The text of a selection is the lexemes of its parts. -/
theorem select_of_render {q : Query} (kind : d.kind = .select ∨ d.kind = .command)
    (h : render d = .ok q) :
    ∃ ps, select d = .ok ps ∧ lexemes? q.text = some (lexemesFrom 1 ps) := by
  obtain ⟨ps, written, rfl⟩ := exists_of_map_eq_ok h
  have scanned := (writes_parts written).scanned
  rw [Draft.write_eq] at scanned
  refine ⟨ps, ?_, scanned.scanned⟩
  rw [parts] at written
  rcases kind with kind | kind
  · rwa [kind] at written
  · rwa [kind] at written

/-- Every rendered text corresponds to its values, and the parameters counted while the text is put
together are as many as the values. -/
theorem corresponds_of_render {q : Query} (h : render d = .ok q) :
    (∃ ls, Corresponds d q ls) ∧ draft d = .ok ⟨q.text, q.params, q.params.length⟩ := by
  obtain ⟨ps, written, rfl⟩ := exists_of_map_eq_ok h
  have writes := writes_parts written
  have scanned := writes.scanned
  rw [Draft.write_eq] at scanned
  refine ⟨⟨_, scanned.scanned, fun l listed => ?_, scanned.numbered, writes.values⟩, ?_⟩
  · obtain ⟨p, part, m, here⟩ := mem_lexemesFrom listed
    exact (writes.known p part).lexemes l here
  · rw [draft_eq, h]
    rfl

theorem corresponds_of_render_hostile_names :
    ∃ d q, render d = .ok q ∧ q.text = "UPDATE \"t\"\"; $1\" SET \"a.\"\"b\" = NULL, \"c\" = $1 " ++
        "WHERE ((\"x\".\"y\"\"\" < $2) OR (\"$3\" ~ $3))" ∧
      (∃ ls, Corresponds d q ls) ∧ draft d = .ok ⟨q.text, q.params, 3⟩ := by
  have rendered : render {
      kind := .update
      table := "t\"; $1"
      fields := .ofList [("a.\"b", .null), ("c", .str "$2")]
      filter := some (.group .or [.comparison "x.y\"" .lt (.int 1), .pattern "$3" "^\"" false]) } =
      .ok ⟨"UPDATE \"t\"\"; $1\" SET \"a.\"\"b\" = NULL, \"c\" = $1 " ++
        "WHERE ((\"x\".\"y\"\"\" < $2) OR (\"$3\" ~ $3))",
        [.str "$2", .int 1, .str "^\""]⟩ := by
    decide +kernel
  obtain ⟨corresponds, counted⟩ := corresponds_of_render rendered
  exact ⟨_, _, rendered, rfl, corresponds, counted⟩

end Sql

end SqlBridge
