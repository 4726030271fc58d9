import SqlBridge.Proofs.Predicate.Children
import SqlBridge.Proofs.Sql.SelectList

/-!
# Parentheses around nothing

Every condition and every group is rendered in parentheses. A condition has its field between them,
but a group has nothing there except its children. So the text of a predicate has a pair of
parentheses around nothing exactly if some group in it joins nothing. No other part of a selection,
an update or a deletion has parentheses, so the same holds of their text.
-/

namespace SqlBridge.Sql

/-- No parenthesis is opened right in front of one that closes. -/
def PairsFilled (ls : List Lexeme) : Prop :=
  ls.IsChain fun l m => ¬(l = .mark '(' ∧ m = .mark ')')

def Lexeme.isParenthesis (l : Lexeme) : Bool :=
  l = .mark '(' || l = .mark ')'

/-- Whether a text has lexemes, none of them a parenthesis. -/
def isBare (text : String) : Bool :=
  match lexemes? text with
  | some ls => !ls.isEmpty && ls.all fun l => !l.isParenthesis
  | none => false

/-- Whether a part is written without parentheses. A name is quoted, so those in it do not count. -/
def Part.isBare : Part → Bool
  | .fixed text => Sql.isBare text
  | _ => true

/-- Parts that fill the parentheses around them, and whose own pairs are filled under the
condition. -/
structure Fills (ps : List Part) (condition : Prop) : Prop where
  filled : ∀ n, lexemesFrom n ps ≠ []
  starts : ∀ n, ∀ l ∈ (lexemesFrom n ps).head?, l ≠ .mark ')'
  ends : ∀ n, ∀ l ∈ (lexemesFrom n ps).getLast?, l ≠ .mark '('
  pairsFilled_iff : ∀ n, PairsFilled (lexemesFrom n ps) ↔ condition

variable {ps qs : List Part} {ls ms : List Lexeme} {p q : Prop} {v : Value} {d : Descriptor}
  {n : Nat}

/-! ### Parts without parentheses -/

theorem exists_lexemes_of_isBare {text : String} (bare : isBare text = true) :
    ∃ ls, lexemes? text = some ls ∧ ls ≠ [] ∧ ∀ l ∈ ls, l ≠ .mark '(' ∧ l ≠ .mark ')' := by
  rw [isBare] at bare
  split at bare
  · next ls found =>
    exact ⟨ls, found, by simpa [Lexeme.isParenthesis] using bare⟩
  · cases bare

theorem lexemesFrom_of_bare (bare : ps.all Part.isBare = true) :
    ∀ l ∈ lexemesFrom n ps, l ≠ .mark '(' ∧ l ≠ .mark ')' := by
  intro l listed
  obtain ⟨p, part, m, there⟩ := mem_lexemesFrom listed
  have here := List.all_eq_true.mp bare p part
  cases p with
  | fixed text =>
    obtain ⟨ls, found, _, apart⟩ := exists_lexemes_of_isBare here
    rw [Part.lexemes, found, Option.getD_some] at there
    exact apart l there
  | identifier name =>
    obtain rfl := List.mem_singleton.mp there
    simp
  | param v =>
    obtain rfl := List.mem_singleton.mp there
    simp

theorem bare_qualified (name : String) : (qualified name).all Part.isBare = true := by
  refine List.all_eq_true.mpr fun p listed => ?_
  rcases mem_qualified listed with rfl | ⟨segment, rfl⟩
  · decide
  · rfl

theorem bare_value (h : value v = .ok ps) : ps.all Part.isBare = true := by
  rcases value_eq_ok h with ⟨_, rfl⟩ | ⟨_, rfl⟩
  · decide
  · rfl

theorem bare_separatedBy {separator : String} {pss : List (List Part)}
    (between : isBare separator = true) (bare : ∀ ps ∈ pss, ps.all Part.isBare = true) :
    (separatedBy separator pss).all Part.isBare = true := by
  induction pss with
  | nil => rfl
  | cons ps pss ih =>
    obtain ⟨first, others⟩ := List.forall_mem_cons.mp bare
    cases pss with
    | nil => exact first
    | cons qs pss =>
      rw [separatedBy_cons_cons, List.all_append, List.all_cons, first, ih others, Part.isBare,
        between]
      rfl

/-! ### Pairs -/

theorem pairsFilled_append (apart : (∀ l ∈ ls.getLast?, l ≠ .mark '(') ∨
    ∀ m ∈ ms.head?, m ≠ .mark ')') :
    PairsFilled (ls ++ ms) ↔ PairsFilled ls ∧ PairsFilled ms := by
  rw [PairsFilled, List.isChain_append]
  refine and_congr_right fun _ => and_iff_left ?_
  rintro l last m first ⟨rfl, rfl⟩
  rcases apart with opens | closes
  · exact opens _ last rfl
  · exact closes _ first rfl

theorem pairsFilled_of_ne (apart : ∀ l ∈ ls, l ≠ .mark '(') : PairsFilled ls := by
  induction ls with
  | nil => exact .nil
  | cons l ls ih =>
    obtain ⟨here, others⟩ := List.forall_mem_cons.mp apart
    exact List.isChain_cons.mpr ⟨fun m _ both => here both.1, ih others⟩

theorem lexemesFrom_opening : lexemesFrom n (.fixed "(" :: ps) = .mark '(' :: lexemesFrom n ps := by
  have text : lexemes? "(" = some [.mark '('] := by decide
  simp [lexemesFrom, Part.lexemes, Part.values, text]

theorem lexemesFrom_closing : lexemesFrom n [.fixed ")"] = [.mark ')'] := by
  have text : lexemes? ")" = some [.mark ')'] := by decide
  simp [lexemesFrom, Part.lexemes, text]

/-- Around nothing, parentheses are not filled. -/
theorem not_pairsFilled_parentheses :
    ¬PairsFilled (lexemesFrom n [.fixed "(", .fixed ")"]) := by
  rw [lexemesFrom_opening, lexemesFrom_closing]
  simp [PairsFilled]

namespace Fills

theorem congr (h : Fills ps p) (same : p ↔ q) : Fills ps q :=
  { h with pairsFilled_iff := fun n => (h.pairsFilled_iff n).trans same }

theorem of_bare (filled : ∀ n, lexemesFrom n ps ≠ []) (bare : ps.all Part.isBare = true) :
    Fills ps True where
  filled := filled
  starts _ l first := (lexemesFrom_of_bare bare l (List.mem_of_mem_head? first)).2
  ends _ l last := (lexemesFrom_of_bare bare l (List.mem_of_mem_getLast? last)).1
  pairsFilled_iff _ :=
    iff_true_intro (pairsFilled_of_ne fun l listed => (lexemesFrom_of_bare bare l listed).1)

theorem phrase (text : String) (bare : isBare text = true) : Fills [.fixed text] True := by
  obtain ⟨ls, found, filled, _⟩ := exists_lexemes_of_isBare bare
  refine of_bare (fun n => ?_) (List.all_eq_true.mpr (List.forall_mem_singleton.mpr bare))
  rwa [(Constant.fixed found).lexemes]

theorem param (v : Value) : Fills [.param v] True :=
  of_bare (fun _ => List.cons_ne_nil _ _) rfl

theorem qualified (name : String) : Fills (qualified name) True := by
  refine of_bare (fun n => ?_) (bare_qualified name)
  obtain ⟨first, others, names⟩ := exists_namesOf name
  rw [(Constant.qualified name).lexemes]
  cases others <;> simp [nameLexemes, names, List.intercalate]

theorem append (first : Fills ps p) (second : Fills qs q) : Fills (ps ++ qs) (p ∧ q) := by
  constructor <;> intro n <;> rw [lexemesFrom_append]
  · exact List.append_ne_nil_of_left_ne_nil (first.filled n) _
  · rw [List.head?_append_of_ne_nil _ (first.filled n)]
    exact first.starts n
  · rw [List.getLast?_append_of_ne_nil _ (second.filled _)]
    exact second.ends _
  · rw [pairsFilled_append (.inl (first.ends n)), first.pairsFilled_iff, second.pairsFilled_iff]

/-- The parentheses around parts that fill them may stand between parentheses again. -/
theorem inParentheses (h : Fills ps p) : Fills (.fixed "(" :: ps ++ [.fixed ")"]) p := by
  constructor <;> intro n <;>
    rw [List.cons_append, lexemesFrom_opening, lexemesFrom_append, lexemesFrom_closing]
  · exact List.cons_ne_nil _ _
  · simp
  · rw [← List.cons_append, List.getLast?_concat]
    simp
  · have alone (l : Lexeme) : PairsFilled [l] := .singleton _
    have opened : ∀ m ∈ (lexemesFrom n ps ++ [Lexeme.mark ')']).head?, m ≠ .mark ')' := by
      rw [List.head?_append_of_ne_nil _ (h.filled n)]
      exact h.starts n
    rw [← List.singleton_append, pairsFilled_append (.inr opened),
      pairsFilled_append (.inl (h.ends n)), h.pairsFilled_iff]
    exact ⟨fun all => all.2.1, fun inner => ⟨alone _, inner, alone _⟩⟩

theorem parentheses : Fills [.fixed "(", .fixed ")"] False := by
  constructor <;> intro n
  case pairsFilled_iff => exact iff_of_false not_pairsFilled_parentheses id
  all_goals
    rw [lexemesFrom_opening, lexemesFrom_closing]
    simp

theorem separatedBy {α : Type} {separator : String} {condition : α → Prop}
    (bare : isBare separator = true) {as : List α} {pss : List (List Part)}
    (each : List.Forall₂ (fun a ps => Fills ps (condition a)) as pss) (some : as ≠ []) :
    Fills (separatedBy separator pss) (∀ a ∈ as, condition a) := by
  induction each with
  | nil => exact absurd rfl some
  | @cons a ps as pss first others ih =>
    cases others with
    | nil => exact first.congr List.forall_mem_singleton.symm
    | @cons b qs bs qss second others =>
      have rest := (phrase separator bare).append (ih (List.cons_ne_nil b bs))
      refine (first.append rest).congr ?_
      rw [true_and, List.forall_mem_cons (a := a)]

end Fills

/-! ### Predicates -/

theorem fills_comparedWith {field : String} {operator : Operator}
    (h : comparedWith field operator v = .ok ps) : Fills ps True := by
  rcases comparedWith_eq_ok h with ⟨_, text, listed, rfl⟩ | ⟨_, rfl⟩
  · have bare : ∀ text ∈ [" IS NULL", " IS NOT NULL"], isBare text = true := by decide
    exact .phrase text (bare text listed)
  · have bare : isBare (" " ++ operator.symbol ++ " ") = true := by
      cases operator <;> decide
    exact ((Fills.phrase _ bare).append (.param v)).congr (and_self_iff)

mutual

/-- A predicate fills parentheses, and its own are filled if each of its groups joins something. -/
theorem fills_predicate : ∀ (x : Predicate) {ps : List Part}, predicate x = .ok ps →
    Fills ps (x.JoinsAtLeast 1)
  | .comparison field operator v, _, h => by
    obtain ⟨rest, compared, rfl⟩ := comparison_eq_ok h
    have inner := ((Fills.qualified field).append (fills_comparedWith compared)).inParentheses
    exact inner.congr (iff_of_true ⟨trivial, trivial⟩ .comparison)
  | .pattern field regex caseInsensitive, _, h => by
    obtain ⟨text, listed, rfl⟩ := pattern_eq_ok h
    have bare : ∀ text ∈ [" ~ ", " ~* "], isBare text = true := by decide
    have matched := (Fills.phrase text (bare text listed)).append (.param (.str regex))
    have inner := ((Fills.qualified field).append matched).inParentheses
    exact inner.congr (iff_of_true ⟨trivial, trivial, trivial⟩ .pattern)
  | .group logic children, _, h => by
    obtain ⟨inner, written, rfl⟩ := group_eq_ok h
    have bare : isBare (connective logic) = true := by
      cases logic <;> decide
    have each := fills_predicates children written
    rw [Predicate.joinsAtLeast_group_iff]
    cases children with
    | nil =>
      cases each
      exact Fills.parentheses.congr (by simp)
    | cons x rest =>
      have all := (Fills.separatedBy bare each (List.cons_ne_nil x rest)).inParentheses
      exact all.congr (by simp)

theorem fills_predicates : ∀ (xs : List Predicate) {pss : List (List Part)},
    predicates xs = .ok pss → List.Forall₂ (fun x ps => Fills ps (x.JoinsAtLeast 1)) xs pss
  | [], _, h => by
    obtain rfl := Except.ok.inj h
    exact .nil
  | x :: rest, _, h => by
    obtain ⟨first, others, here, later, rfl⟩ := predicates_cons_eq_ok h
    exact .cons (fills_predicate x here) (fills_predicates rest later)

end

/-- The text of a predicate has no parentheses around nothing exactly if each of its groups joins
something. -/
theorem pairsFilled_of_predicate {x : Predicate} (h : predicate x = .ok ps) :
    ∃ ls, lexemes? (Query.ofParts ps).text = some ls ∧ (PairsFilled ls ↔ x.JoinsAtLeast 1) := by
  let d : Descriptor := { kind := .delete, filter := some x }
  have named : ∀ name ∈ x.leaves.filterMap Predicate.field?, name ∈ d.names := by
    intro name listed
    have leaf : name ∈ d.filterLeaves.filterMap Predicate.field? := listed
    exact mem_names.mpr (by simp only [leaf, true_or, or_true])
  have scanned := (writes_predicate x h named).scanned
  rw [Draft.write_eq] at scanned
  exact ⟨_, scanned.scanned, (fills_predicate x h).pairsFilled_iff 1⟩

/-! ### Descriptors -/

theorem bare_selectList : (selectList d).all Part.isBare = true := by
  rw [selectList]
  split
  · decide
  · refine bare_separatedBy (by decide) (List.forall_mem_map.mpr fun column _ => ?_)
    rw [selectItem, List.all_append, bare_qualified]
    split <;> rfl

theorem bare_join (table : String) (l : Lookup) : (join table l).all Part.isBare = true := by
  simp only [join, List.all_append, bare_qualified, Bool.and_true]
  split <;> split <;> rfl

theorem bare_orderClause (elements : List OrderElement) :
    (orderClause elements).all Part.isBare = true := by
  rw [orderClause]
  split
  · rfl
  · refine bare_separatedBy (by decide) (List.forall_mem_map.mpr fun e _ => ?_)
    rw [orderItem, List.all_append, bare_qualified]
    cases e.direction <;> rfl

theorem bare_limitClause (limit : Option Limit) : (limitClause limit).all Part.isBare = true := by
  have number (n : Nat) : Part.isBare (.fixed n.repr) = true := by
    simp [Part.isBare, isBare, lexemes?_repr, Lexeme.isParenthesis]
  have phrases : Part.isBare (.fixed " LIMIT ") = true ∧
      Part.isBare (.fixed " OFFSET ") = true := by
    decide
  cases limit with
  | none => rfl
  | some l =>
    rw [limitClause]
    split <;> simp [number, phrases]

theorem bare_assignments {es : List (String × Value)} {pss : List (List Part)}
    (h : es.mapM assignment = .ok pss) : (separatedBy ", " pss).all Part.isBare = true := by
  refine bare_separatedBy (by decide) ?_
  have related := forall₂_of_mapM h
  clear h
  induction related with
  | nil => simp
  | cons assigned _ ih =>
    obtain ⟨qs, given, rfl⟩ := exists_of_map_eq_ok assigned
    refine List.forall_mem_cons.mpr ⟨?_, ih⟩
    rw [List.all_cons, List.all_cons, bare_value given]
    rfl

/-- Parts without parentheses may stand around others. -/
theorem pairsFilled_between {front back : List Part} (before : front.all Part.isBare = true)
    (behind : back.all Part.isBare = true) (inner : ∀ n, PairsFilled (lexemesFrom n ps) ↔ p) :
    PairsFilled (lexemesFrom n (front ++ (ps ++ back))) ↔ p := by
  have bare {n : Nat} {qs : List Part} (h : qs.all Part.isBare = true) :=
    pairsFilled_of_ne fun l listed => (lexemesFrom_of_bare (n := n) h l listed).1
  rw [lexemesFrom_append, lexemesFrom_append, pairsFilled_append, pairsFilled_append, inner]
  · exact ⟨fun all => all.2.1, fun here => ⟨bare before, here, bare behind⟩⟩
  · exact .inr fun m first => (lexemesFrom_of_bare behind m (List.mem_of_mem_head? first)).2
  · exact .inl fun l last => (lexemesFrom_of_bare before l (List.mem_of_mem_getLast? last)).1

theorem pairsFilled_whereClause {filter : Option Predicate} (h : whereClause filter = .ok ps)
    (n : Nat) : PairsFilled (lexemesFrom n ps) ↔ ∀ x ∈ filter, x.JoinsAtLeast 1 := by
  rcases whereClause_eq_ok h with ⟨rfl, rfl⟩ | ⟨x, qs, rfl, written, rfl⟩
  · exact iff_of_true .nil (by simp)
  · have clause := (Fills.phrase " WHERE " (by decide)).append (fills_predicate x written)
    rw [← List.singleton_append, clause.pairsFilled_iff]
    simp

theorem pairsFilled_select (h : select d = .ok ps) :
    PairsFilled (lexemesFrom n ps) ↔ ∀ x ∈ d.filter, x.JoinsAtLeast 1 := by
  obtain ⟨filter, filtered, rfl⟩ := select_eq_ok h
  let front := .fixed "SELECT " :: ((if d.distinctOn.isSome then [.fixed "DISTINCT "] else [])
    ++ (selectList d ++ .fixed " FROM " :: .identifier d.table :: d.joins.flatMap (join d.table)))
  have joins : (d.joins.flatMap (join d.table)).all Part.isBare = true := by
    simp only [List.all_flatMap, bare_join, List.all_eq_true, implies_true]
  have before : front.all Part.isBare = true := by
    simp only [front, List.all_cons, List.all_append, bare_selectList, joins]
    split <;> rfl
  have behind : (orderClause d.orderBy ++ limitClause d.limit).all Part.isBare = true := by
    rw [List.all_append, bare_orderClause, bare_limitClause]
    rfl
  have whole := pairsFilled_between before behind (pairsFilled_whereClause filtered) (n := n)
  simpa [front, clausesOf] using whole

theorem pairsFilled_update (h : update d = .ok ps) :
    PairsFilled (lexemesFrom n ps) ↔ ∀ x ∈ d.filter, x.JoinsAtLeast 1 := by
  rw [update] at h
  split at h
  · cases h
  · obtain ⟨assignments, written, h⟩ := exists_of_bind_eq_ok h
    obtain ⟨filter, filtered, same⟩ := exists_of_bind_eq_ok h
    obtain rfl := Except.ok.inj same
    have before : ([Part.fixed "UPDATE ", .identifier d.table, .fixed " SET "]
        ++ separatedBy ", " assignments).all Part.isBare = true := by
      rw [List.all_append, bare_assignments written]
      rfl
    have whole := pairsFilled_between before List.all_nil (pairsFilled_whereClause filtered)
      (n := n)
    rwa [List.append_nil] at whole

theorem pairsFilled_delete (h : delete d = .ok ps) :
    PairsFilled (lexemesFrom n ps) ↔ ∀ x ∈ d.filter, x.JoinsAtLeast 1 := by
  rw [delete] at h
  obtain ⟨filter, filtered, same⟩ := exists_of_bind_eq_ok h
  obtain rfl := Except.ok.inj same
  have before : [Part.fixed "DELETE FROM ", .identifier d.table].all Part.isBare = true := rfl
  have whole := pairsFilled_between before List.all_nil (pairsFilled_whereClause filtered) (n := n)
  rwa [List.append_nil] at whole

/-- A descriptor that says its filter has no parentheses but those of the filter. -/
theorem pairsFilled_parts (filters : d.kind ≠ .insert ∧ d.kind ≠ .procedure)
    (h : parts d = .ok ps) :
    PairsFilled (lexemesFrom n ps) ↔ ∀ x ∈ d.filter, x.JoinsAtLeast 1 := by
  rw [parts] at h
  cases kind : d.kind with
  | select | command =>
    rw [kind] at h
    exact pairsFilled_select h
  | update =>
    rw [kind] at h
    exact pairsFilled_update h
  | delete =>
    rw [kind] at h
    exact pairsFilled_delete h
  | insert => exact absurd kind filters.1
  | procedure => exact absurd kind filters.2

/-- The text of a descriptor that says its filter has no parentheses around nothing exactly if each
group of the filter joins something. -/
theorem pairsFilled_of_render {q : Query} (filters : d.kind ≠ .insert ∧ d.kind ≠ .procedure)
    (h : render d = .ok q) :
    ∃ ls, lexemes? q.text = some ls ∧ (PairsFilled ls ↔ ∀ x ∈ d.filter, x.JoinsAtLeast 1) := by
  obtain ⟨ps, written, rfl⟩ := exists_of_map_eq_ok h
  have scanned := (writes_parts written).scanned
  rw [Draft.write_eq] at scanned
  exact ⟨_, scanned.scanned, pairsFilled_parts filters written⟩

end SqlBridge.Sql
