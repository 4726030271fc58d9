import SqlBridge.Proofs.OrderedMap
import SqlBridge.Proofs.Statement.Clause
import SqlBridge.Statement.Compile

/-!
# The grammar of statements

For each kind of statement a judgment says which tokens are such a statement and which descriptor it
has. Compiling tokens yields a descriptor exactly when they are a statement with that descriptor.
-/

namespace SqlBridge

open Reader

variable {ctx : Context} {p rest : List Token} {d : Descriptor}

/-! ### Deletions -/

namespace Delete

inductive StatementOf (ctx : Context) : List Token → Descriptor → Prop where
  | delete {k j t : Token} {p : List Token} {table : String} {filter : Option Predicate}
      (delete : k.isKeyword "DELETE" = true) (from_ : j.isKeyword "FROM" = true)
      (named : t.name? = some table) (filtered : Condition.WhereOf ctx [] p filter) :
      StatementOf ctx (k :: j :: t :: p) { kind := .delete, table, filter }

theorem reads_statement :
    (statement ctx).Reads p d rest ↔ rest = [] ∧ StatementOf ctx p d := by
  rw [statement, reads_expectKeyword_bind]
  constructor
  · rintro ⟨k, s, rfl, delete, h⟩
    obtain ⟨j, s, rfl, from_, h⟩ := reads_expectKeyword_bind.mp h
    obtain ⟨t, s, table, rfl, named, h⟩ := reads_name_bind.mp h
    obtain ⟨q, s, filter, rfl, filtered, h⟩ := reads_bind.mp h
    obtain ⟨rfl, rfl, h⟩ := reads_finish_bind.mp h
    obtain ⟨_, rfl⟩ := reads_pure.mp h
    rw [List.append_nil]
    exact ⟨rfl, .delete delete from_ named (Condition.reads_whereClause?.mp filtered)⟩
  · rintro ⟨rfl, h⟩
    cases h with
    | @delete k j t p table filter delete from_ named filtered =>
      refine ⟨k, j :: t :: p, rfl, delete, reads_expectKeyword_bind.mpr ⟨j, t :: p, rfl, from_, ?_⟩⟩
      refine reads_name_bind.mpr ⟨t, p, table, rfl, named, reads_bind.mpr ?_⟩
      refine ⟨p, [], filter, (List.append_nil p).symm, ?_, ?_⟩
      · exact Condition.reads_whereClause?.mpr filtered
      · exact reads_finish_bind.mpr ⟨rfl, rfl, reads_pure.mpr ⟨rfl, rfl⟩⟩

end Delete

/-! ### Entries under new keys -/

/-- Items with commas between them that also depend on their number, the first having number `n`. -/
inductive Numbered {α : Type} (J : Nat → List Token → α → Prop) (rest : List Token) :
    Nat → List Token → List α → Prop where
  | last {n : Nat} {p : List Token} {a : α} (only : J n p a) (ended : rest.head? ≠ some .comma) :
      Numbered J rest n p [a]
  | more {n : Nat} {p q : List Token} {a : α} {as : List α} (first : J n p a)
      (others : Numbered J rest (n + 1) q as) : Numbered J rest n (p ++ .comma :: q) (a :: as)

theorem numbered_iff_items {α : Type} {J : List Token → α → Prop} {n : Nat} {as : List α} :
    Numbered (fun _ => J) rest n p as ↔ Items (fun _ => J) rest p as := by
  constructor
  · intro h
    induction h with
    | last only ended => exact .last only ended
    | more first _ ih => exact .more first ih
  · intro h
    induction h generalizing n with
    | last only ended => exact .last only ended
    | more first _ ih => exact .more first ih

/-- If each pass adds one entry under a new key, the passes add the entries of a list. -/
theorem passes_iff_grows {item : OrderedMap Value → Reader (OrderedMap Value)}
    {J : Nat → List Token → String × Value → Prop} {m m' : OrderedMap Value}
    (reads : ∀ {m m' p rest}, (item m).Reads p m' rest ↔
      ∃ e, J m.entries.length p e ∧ m.Grows [e] m') :
    Passes item rest m p m' ↔ ∃ es, Numbered J rest m.entries.length p es ∧ m.Grows es m' := by
  constructor
  · intro passes
    induction passes with
    | last only ended =>
      obtain ⟨e, single, grows⟩ := reads.mp only
      exact ⟨[e], .last single ended, grows⟩
    | more first _ ih =>
      obtain ⟨e, single, grows⟩ := reads.mp first
      obtain ⟨es, others, tail⟩ := ih
      obtain ⟨new, same⟩ := OrderedMap.grows_cons.mp grows
      rw [grows, List.length_append, List.length_singleton] at others
      rw [OrderedMap.grows_nil.mp same] at tail
      exact ⟨e :: es, .more single others, OrderedMap.grows_cons.mpr ⟨new, tail⟩⟩
  · rintro ⟨es, items, grows⟩
    generalize hn : m.entries.length = n at items
    induction items generalizing m with
    | last only ended =>
      subst hn
      exact .last (reads.mpr ⟨_, only, grows⟩) ended
    | more first _ ih =>
      subst hn
      obtain ⟨new, tail⟩ := OrderedMap.grows_cons.mp grows
      refine .more (reads.mpr ⟨_, first, ?_⟩) (ih tail ?_)
      · exact OrderedMap.grows_cons.mpr ⟨new, OrderedMap.grows_nil.mpr rfl⟩
      · rw [OrderedMap.entries_insert_of_new new, List.length_append, List.length_singleton]

/-! ### Updates -/

namespace Update

inductive AssignmentOf (params : Params) : List Token → String × Value → Prop where
  | assignment {t u : Token} {field : String} {v : Value} (named : t.name? = some field)
      (given : params.ValueOf u v) : AssignmentOf params [t, .symbol "=", u] (field, v)

inductive StatementOf (ctx : Context) : List Token → Descriptor → Prop where
  | update {k t j : Token} {p q : List Token} {table : String} {fields : OrderedMap Value}
      {filter : Option Predicate} (update : k.isKeyword "UPDATE" = true)
      (named : t.name? = some table) (set : j.isKeyword "SET" = true)
      (assigned : Items (fun _ => AssignmentOf ctx.params) q p fields.entries)
      (filtered : Condition.WhereOf ctx [] q filter) :
      StatementOf ctx (k :: t :: j :: (p ++ q)) { kind := .update, table, fields, filter }

theorem reads_assignment {m m' : OrderedMap Value} :
    (assignment ctx m).Reads p m' rest ↔
      ∃ e, AssignmentOf ctx.params p e ∧ m.Grows [e] m' := by
  rw [assignment, reads_name_bind]
  constructor
  · rintro ⟨t, s, field, rfl, named, h⟩
    obtain ⟨s, rfl, h⟩ := reads_next_guard.mp h
    obtain ⟨u, s, v, rfl, given, h⟩ := Context.reads_value_bind.mp h
    rw [reads_ite] at h
    obtain ⟨_, h⟩ | ⟨new, h⟩ := h
    · exact False.elim (not_reads_fail_bind h)
    · obtain ⟨rfl, rfl⟩ := reads_pure.mp h
      refine ⟨(field, v), .assignment named given, OrderedMap.grows_cons.mpr ⟨?_, ?_⟩⟩
      · exact Bool.eq_false_iff.mpr new
      · exact OrderedMap.grows_nil.mpr rfl
  · rintro ⟨e, assigned, grows⟩
    cases assigned with
    | @assignment t u field v named given =>
      obtain ⟨new, same⟩ := OrderedMap.grows_cons.mp grows
      refine ⟨t, [.symbol "=", u], field, rfl, named, reads_next_guard.mpr ⟨[u], rfl, ?_⟩⟩
      refine Context.reads_value_bind.mpr ⟨u, [], v, rfl, given, ?_⟩
      rw [reads_ite]
      exact .inr ⟨Bool.eq_false_iff.mp new, reads_pure.mpr ⟨rfl, OrderedMap.grows_nil.mp same⟩⟩

theorem reads_assignments {fields : OrderedMap Value} :
    (separated (assignment ctx) ∅).Reads p fields rest ↔
      Items (fun _ => AssignmentOf ctx.params) rest p fields.entries := by
  rw [reads_separated, passes_iff_grows (J := fun _ => AssignmentOf ctx.params) reads_assignment]
  simp only [numbered_iff_items, OrderedMap.empty_grows]
  constructor
  · rintro ⟨es, items, rfl⟩
    exact items
  · intro items
    exact ⟨_, items, rfl⟩

theorem reads_statement :
    (statement ctx).Reads p d rest ↔ rest = [] ∧ StatementOf ctx p d := by
  rw [statement, reads_expectKeyword_bind]
  constructor
  · rintro ⟨k, s, rfl, update, h⟩
    obtain ⟨t, s, table, rfl, named, h⟩ := reads_name_bind.mp h
    obtain ⟨j, s, rfl, set, h⟩ := reads_expectKeyword_bind.mp h
    obtain ⟨q, s, fields, rfl, assigned, h⟩ := reads_bind.mp h
    obtain ⟨r, s, filter, rfl, filtered, h⟩ := reads_bind.mp h
    obtain ⟨rfl, rfl, h⟩ := reads_finish_bind.mp h
    obtain ⟨_, rfl⟩ := reads_pure.mp h
    rw [List.append_nil, List.append_nil] at assigned
    rw [List.append_nil]
    refine ⟨rfl, .update update named set (reads_assignments.mp assigned) ?_⟩
    exact Condition.reads_whereClause?.mp filtered
  · rintro ⟨rfl, h⟩
    cases h with
    | @update k t j p q table fields filter update named set assigned filtered =>
      refine ⟨k, _, rfl, update, reads_name_bind.mpr ⟨t, _, table, rfl, named, ?_⟩⟩
      refine reads_expectKeyword_bind.mpr ⟨j, _, rfl, set, reads_bind.mpr ?_⟩
      refine ⟨p, q, fields, rfl, reads_assignments.mpr ?_, reads_bind.mpr ?_⟩
      · rw [List.append_nil]
        exact assigned
      · refine ⟨q, [], filter, (List.append_nil q).symm, ?_, ?_⟩
        · exact Condition.reads_whereClause?.mpr filtered
        · exact reads_finish_bind.mpr ⟨rfl, rfl, reads_pure.mpr ⟨rfl, rfl⟩⟩

end Update

/-! ### Insertions -/

namespace Insert

def NameAt (p : List Token) (name : String) : Prop :=
  ∃ t, p = [t] ∧ t.name? = some name

def ValueAt (params : Params) (p : List Token) (v : Value) : Prop :=
  ∃ t, p = [t] ∧ params.ValueOf t v

inductive StatementOf (ctx : Context) : List Token → Descriptor → Prop where
  | insert {k j t v : Token} {w p q : List Token} {ignoreOnConflict : Bool} {table : String}
      {fields : OrderedMap Value} (insert : k.isKeyword "INSERT" = true)
      (ignoring : Marked "IGNORE" [j] w ignoreOnConflict) (into : j.isKeyword "INTO" = true)
      (named : t.name? = some table) (columns : Items (fun _ => NameAt) [.rightParen] p fields.keys)
      (values : v.isKeyword "VALUES" = true ∨ v.isKeyword "VALUE" = true)
      (row : Items (fun _ => ValueAt ctx.params) [.rightParen] q fields.values) :
      StatementOf ctx
        (k :: (w ++ j :: t :: .leftParen :: (p ++ .rightParen :: v :: .leftParen ::
          (q ++ [.rightParen]))))
        { kind := .insert, table, fields, ignoreOnConflict }

/-- A list in parentheses takes them and the items of the list. -/
theorem reads_inParentheses {α : Type} {item : Reader α} {J : List Token → α → Prop} {as : List α}
    (reads : ∀ {p a rest}, item.Reads p a rest ↔ J p a)
    (filled : ∀ {p a}, J p a → ∃ t q, p = t :: q ∧ t ≠ .rightParen) :
    (inParentheses item).Reads p as rest ↔
      ∃ q, p = .leftParen :: (q ++ [.rightParen]) ∧ Items (fun _ => J) [.rightParen] q as := by
  have unchanged : ∀ q, Items (fun _ => J) (.rightParen :: rest) q as ↔
      Items (fun _ => J) [.rightParen] q as := by
    intro q
    constructor
    · intro items
      induction items with
      | last only => exact .last only (by simp)
      | more first _ ih => exact .more first ih
    · intro items
      induction items with
      | last only => exact .last only (by simp)
      | more first _ ih => exact .more first ih
  rw [inParentheses, reads_expect_bind]
  constructor
  · rintro ⟨s, rfl, h⟩
    obtain ⟨_, h⟩ | ⟨_, h⟩ := reads_at?_bind.mp h
    · exact False.elim (not_reads_fail_bind h)
    · obtain ⟨q, s, items, rfl, inner, h⟩ := reads_bind.mp h
      obtain ⟨s, rfl, h⟩ := reads_expect_bind.mp h
      obtain ⟨rfl, rfl⟩ := reads_pure.mp h
      exact ⟨q, rfl, (unchanged q).mp ((reads_list reads).mp inner)⟩
  · rintro ⟨q, rfl, items⟩
    refine ⟨q ++ [.rightParen], rfl, reads_at?_bind.mpr (.inr ⟨?_, reads_bind.mpr ?_⟩)⟩
    · cases items with
      | last only =>
        obtain ⟨t, q, rfl, apart⟩ := filled only
        simpa using apart
      | more first =>
        obtain ⟨t, q, rfl, apart⟩ := filled first
        simpa using apart
    · refine ⟨q, [.rightParen], as, rfl, (reads_list reads).mpr ((unchanged q).mpr items), ?_⟩
      exact reads_expect_bind.mpr ⟨[], rfl, reads_pure.mpr ⟨rfl, rfl⟩⟩

theorem reads_names {names : List String} :
    (inParentheses name).Reads p names rest ↔
      ∃ q, p = .leftParen :: (q ++ [.rightParen]) ∧
        Items (fun _ => NameAt) [.rightParen] q names := by
  refine reads_inParentheses ?_ ?_
  · intro p a rest
    rw [← bind_pure name, reads_name_bind]
    constructor
    · rintro ⟨t, s, a, rfl, named, h⟩
      obtain ⟨rfl, rfl⟩ := reads_pure.mp h
      exact ⟨t, rfl, named⟩
    · rintro ⟨t, rfl, named⟩
      exact ⟨t, [], a, rfl, named, reads_pure.mpr ⟨rfl, rfl⟩⟩
  · rintro p a ⟨t, rfl, named⟩
    refine ⟨t, [], rfl, ?_⟩
    rintro rfl
    cases named

theorem reads_row {row : List Token} :
    (inParentheses value).Reads p row rest ↔
      ∃ q, p = .leftParen :: (q ++ [.rightParen]) ∧
        Items (fun _ p t => p = [t] ∧ t.isValue = true) [.rightParen] q row := by
  refine reads_inParentheses ?_ ?_
  · intro p t rest
    rw [← bind_pure value, reads_value_bind]
    constructor
    · rintro ⟨t, s, rfl, value, h⟩
      obtain ⟨rfl, rfl⟩ := reads_pure.mp h
      exact ⟨rfl, value⟩
    · rintro ⟨rfl, value⟩
      exact ⟨t, [], rfl, value, reads_pure.mpr ⟨rfl, rfl⟩⟩
  · rintro p t ⟨rfl, value⟩
    refine ⟨t, [], rfl, ?_⟩
    rintro rfl
    cases value

theorem assign_cons_iff {params : Params} {m m' : OrderedMap Value} {column : String} {t : Token}
    {es : List (String × Token)} :
    assign params m ((column, t) :: es) = .ok m' ↔ ∃ v, params.valueOf t = .ok v ∧
      m.contains column = false ∧ assign params (m.insert column v) es = .ok m' := by
  rw [assign]
  cases params.valueOf t with
  | error e => simp [bind, Except.bind]
  | ok v => cases m.contains column <;> simp [bind, Except.bind]

/-- The columns become the keys, and the tokens give the values. -/
theorem assign_zip_iff {params : Params} {columns : List String} {row : List Token}
    {m m' : OrderedMap Value} (same : columns.length = row.length) :
    assign params m (columns.zip row) = .ok m' ↔ ∃ es, m.Grows es m' ∧ es.map Prod.fst = columns ∧
      List.Forall₂ (fun t v => params.valueOf t = .ok v) row (es.map Prod.snd) := by
  induction columns generalizing row m with
  | nil =>
    obtain rfl : row = [] := List.length_eq_zero_iff.mp same.symm
    constructor
    · intro h
      cases h
      exact ⟨[], OrderedMap.grows_nil.mpr rfl, rfl, .nil⟩
    · rintro ⟨es, grows, keys, _⟩
      obtain rfl := List.map_eq_nil_iff.mp keys
      rw [OrderedMap.grows_nil.mp grows]
      rfl
  | cons column columns ih =>
    rcases row with _ | ⟨t, row⟩
    · cases same
    · rw [List.zip_cons_cons, assign_cons_iff]
      constructor
      · rintro ⟨v, given, new, h⟩
        obtain ⟨es, grows, rfl, others⟩ := (ih (Nat.succ.inj same)).mp h
        exact ⟨(column, v) :: es, OrderedMap.grows_cons.mpr ⟨new, grows⟩, rfl, .cons given others⟩
      · rintro ⟨es, grows, keys, related⟩
        rcases es with _ | ⟨⟨k, v⟩, es⟩
        · cases keys
        · cases keys
          obtain ⟨new, grows⟩ := OrderedMap.grows_cons.mp grows
          cases related with
          | cons given others =>
            exact ⟨v, given, new, (ih (Nat.succ.inj same)).mpr ⟨es, grows, rfl, others⟩⟩

theorem pair_iff {params : Params} {columns : List String} {row : List Token}
    {fields : OrderedMap Value} :
    pair params columns row = .ok fields ↔ fields.keys = columns ∧
      List.Forall₂ (fun t v => params.valueOf t = .ok v) row fields.values := by
  by_cases same : columns.length = row.length
  · rw [pair, if_neg (not_not.mpr same), assign_zip_iff same]
    constructor
    · rintro ⟨es, grows, rfl, related⟩
      obtain rfl := OrderedMap.empty_grows.mp grows
      exact ⟨rfl, related⟩
    · rintro ⟨rfl, related⟩
      exact ⟨fields.entries, rfl, rfl, related⟩
  · rw [pair, if_pos same]
    constructor
    · intro h
      cases h
    · rintro ⟨rfl, related⟩
      have : row.length = fields.values.length := related.length_eq
      simp only [OrderedMap.keys, OrderedMap.values, List.length_map] at same this
      exact absurd this.symm same

/-- Columns and values that are listed are paired, and nothing else is. -/
theorem row_iff {params : Params} {q : List Token} {columns : List String}
    {fields : OrderedMap Value} :
    (∃ row, Items (fun _ p t => p = [t] ∧ t.isValue = true) rest q row ∧
      pair params columns row = .ok fields) ↔
      fields.keys = columns ∧ Items (fun _ => ValueAt params) rest q fields.values := by
  have split : (fun (_ : List Token) => ValueAt params) =
      fun _ p v => ∃ t, (p = [t] ∧ t.isValue = true) ∧ params.valueOf t = .ok v := by
    funext _ p v
    simp only [ValueAt, Params.valueOf_iff, and_assoc]
  rw [split, items_iff_forall₂ (J := fun _ p t => p = [t] ∧ Token.isValue t = true)
    (R := fun t v => params.valueOf t = .ok v)]
  simp only [pair_iff]
  constructor
  · rintro ⟨row, items, keys, related⟩
    exact ⟨keys, row, items, related⟩
  · rintro ⟨keys, row, items, related⟩
    exact ⟨row, items, keys, related⟩

theorem reads_values_bind {β : Type} {e : CompileError} {f : Unit → Reader β} {b : β} :
    (eatKeyword "VALUES" >>= fun plural => if plural then f () else
      eatKeyword "VALUE" >>= fun single => if single then f () else fail e >>= f).Reads p b rest ↔
      ∃ v s, p = v :: s ∧ (v.isKeyword "VALUES" = true ∨ v.isKeyword "VALUE" = true) ∧
        (f ()).Reads s b rest := by
  rw [reads_eatKeyword_bind]
  constructor
  · rintro (⟨v, s, rfl, plural, h⟩ | ⟨_, h⟩)
    · exact ⟨v, s, rfl, .inl plural, h⟩
    · obtain ⟨v, s, rfl, single, h⟩ | ⟨_, h⟩ := reads_eatKeyword_bind.mp h
      · exact ⟨v, s, rfl, .inr single, h⟩
      · exact False.elim (not_reads_fail_bind h)
  · rintro ⟨v, s, rfl, plural | single, h⟩
    · exact .inl ⟨v, s, rfl, plural, h⟩
    · have apart : ¬ v.isKeyword "VALUES" = true := fun plural =>
        absurd (Token.upper_eq_of_isKeyword plural single) (by decide)
      exact .inr ⟨apart, reads_eatKeyword_bind.mpr (.inl ⟨v, s, rfl, single, h⟩)⟩

/-- Take an insertion up to its end: the descriptor but for its values, the columns, and the tokens
of the row. -/
def lists : Reader (Descriptor × List String × List Token) := do
  Reader.expectKeyword "INSERT"
  let ignoreOnConflict ← Reader.eatKeyword "IGNORE"
  Reader.expectKeyword "INTO"
  let table ← Reader.name
  let columns ← inParentheses Reader.name
  unless ← Reader.eatKeyword "VALUES" do
    unless ← Reader.eatKeyword "VALUE" do
      Reader.fail (.malformedClause (.valuesExpected table))
  let row ← inParentheses Reader.value
  Reader.finish
  return ({ kind := .insert, table, ignoreOnConflict }, columns, row)

/-- No value is looked up before the whole insertion is taken. -/
theorem statement_eq : statement ctx = (do
    let (d, columns, row) ← lists
    let fields ← Reader.ofExcept (pair ctx.params columns row)
    return { d with fields }) := by
  simp only [statement, lists, bind_assoc]
  congr! 11 with _ ignoreOnConflict _ table columns
  funext plural
  cases plural with
  | true => simp only [if_true, bind_assoc, pure_bind]
  | false =>
    simp only [Bool.false_eq_true, if_false, bind_assoc]
    congr! 2 with single
    cases single <;> simp only [Bool.false_eq_true, if_true, if_false, bind_assoc, pure_bind]

/-- The tokens of an insertion, with the columns and the tokens of the row that they list. -/
inductive ListsOf : List Token → Descriptor → List String → List Token → Prop where
  | lists {k j t v : Token} {w p q row : List Token} {ignoreOnConflict : Bool} {table : String}
      {columns : List String} (insert : k.isKeyword "INSERT" = true)
      (ignoring : Marked "IGNORE" [j] w ignoreOnConflict) (into : j.isKeyword "INTO" = true)
      (named : t.name? = some table) (listed : Items (fun _ => NameAt) [.rightParen] p columns)
      (values : v.isKeyword "VALUES" = true ∨ v.isKeyword "VALUE" = true)
      (given : Items (fun _ p t => p = [t] ∧ t.isValue = true) [.rightParen] q row) :
      ListsOf
        (k :: (w ++ j :: t :: .leftParen :: (p ++ .rightParen :: v :: .leftParen ::
          (q ++ [.rightParen]))))
        { kind := .insert, table, ignoreOnConflict } columns row

theorem reads_lists {columns : List String} {row : List Token} :
    lists.Reads p (d, columns, row) rest ↔ rest = [] ∧ ListsOf p d columns row := by
  rw [lists, reads_expectKeyword_bind]
  constructor
  · rintro ⟨k, s, rfl, insert, h⟩
    obtain ⟨w, s, ignoreOnConflict, rfl, ignoring, h⟩ := reads_marked_bind.mp h
    obtain ⟨j, s, rfl, into, h⟩ := reads_expectKeyword_bind.mp h
    obtain ⟨t, s, table, rfl, named, h⟩ := reads_name_bind.mp h
    obtain ⟨_, s, columns, rfl, listed, h⟩ := reads_bind.mp h
    obtain ⟨v, s, rfl, values, h⟩ := reads_values_bind.mp h
    obtain ⟨_, s, row, rfl, given, h⟩ := reads_bind.mp h
    obtain ⟨rfl, rfl, h⟩ := reads_finish_bind.mp h
    obtain ⟨_, same⟩ := reads_pure.mp h
    cases same
    obtain ⟨p, rfl, names⟩ := reads_names.mp listed
    obtain ⟨q, rfl, tokens⟩ := reads_row.mp given
    refine ⟨rfl, ?_⟩
    simpa using ListsOf.lists insert (marked_cons_iff.mp ignoring) into named names values tokens
  · rintro ⟨rfl, h⟩
    cases h with
    | @lists k j t v w p q row ignoreOnConflict table columns insert ignoring into named listed
        values given =>
      refine ⟨k, _, rfl, insert, reads_marked_bind.mpr ⟨w, _, ignoreOnConflict, rfl, ?_, ?_⟩⟩
      · exact marked_cons_iff.mpr ignoring
      · refine reads_expectKeyword_bind.mpr ⟨j, _, rfl, into, reads_name_bind.mpr ?_⟩
        refine ⟨t, _, table, rfl, named, reads_bind.mpr ?_⟩
        refine ⟨.leftParen :: (p ++ [.rightParen]), v :: .leftParen :: (q ++ [.rightParen]),
          columns, by simp, reads_names.mpr ⟨p, rfl, listed⟩, ?_⟩
        refine reads_values_bind.mpr ⟨v, _, rfl, values, reads_bind.mpr ?_⟩
        refine ⟨_, [], row, (List.append_nil _).symm, reads_row.mpr ⟨q, rfl, given⟩, ?_⟩
        exact reads_finish_bind.mpr ⟨rfl, rfl, reads_pure.mpr ⟨rfl, rfl⟩⟩

theorem reads_statement :
    (statement ctx).Reads p d rest ↔ rest = [] ∧ StatementOf ctx p d := by
  rw [statement_eq, reads_bind]
  constructor
  · rintro ⟨q, s, ⟨_, columns, row⟩, rfl, listed, h⟩
    obtain ⟨fields, paired, h⟩ := reads_ofExcept_bind.mp h
    obtain ⟨rfl, rfl⟩ := reads_pure.mp h
    obtain ⟨ended, lists⟩ := reads_lists.mp listed
    rw [List.append_nil]
    cases lists with
    | lists insert ignoring into named listed values given =>
      obtain ⟨rfl, row⟩ := row_iff.mp ⟨_, given, paired⟩
      exact ⟨ended, .insert insert ignoring into named listed values row⟩
  · rintro ⟨rfl, h⟩
    cases h with
    | insert insert ignoring into named columns values row =>
      obtain ⟨tokens, given, paired⟩ := row_iff.mpr ⟨rfl, row⟩
      have lists := ListsOf.lists insert ignoring into named columns values given
      refine ⟨_, [], (_, _, tokens), (List.append_nil _).symm, reads_lists.mpr ⟨rfl, lists⟩, ?_⟩
      exact reads_ofExcept_bind.mpr ⟨_, paired, reads_pure.mpr ⟨rfl, rfl⟩⟩

end Insert

/-! ### Procedure calls -/

namespace Procedure

/-- The argument at a position: a placeholder is passed under its own name, and a literal under the
name of its position. -/
inductive ArgumentOf (params : Params) (position : Nat) : List Token → String × Value → Prop where
  | literal {t : Token} (value : t.isValue = true) (plain : t.literal.isPlaceholder = false) :
      ArgumentOf params position [t] ("param" ++ position.repr, t.literal)
  | bound {t : Token} {name : String} {v : Value} (value : t.isValue = true)
      (placeholder : t.literal = .placeholder name) (found : params.get? name = some v)
      (plain : v.isPlaceholder = false) : ArgumentOf params position [t] (name, v)

/-- The arguments of a call, with parentheses or without. -/
inductive ArgumentsOf (ctx : Context) (rest : List Token) :
    List Token → OrderedMap Value → Prop where
  | nothing (ended : rest.head? ≠ some .leftParen) : ArgumentsOf ctx rest [] ∅
  | empty : ArgumentsOf ctx rest [.leftParen, .rightParen] ∅
  | listed {p : List Token} {fields : OrderedMap Value}
      (items : Numbered (fun n => ArgumentOf ctx.params (n + 1)) (.rightParen :: rest) 0 p
        fields.entries) : ArgumentsOf ctx rest (.leftParen :: (p ++ [.rightParen])) fields

/-- A semicolon that may be left out. -/
inductive Separator : List Token → Prop where
  | nothing : Separator []
  | semicolon : Separator [.semicolon]

inductive StatementOf (ctx : Context) : List Token → Descriptor → Prop where
  | call {k t : Token} {p : List Token} {name keyword : String} {fields : OrderedMap Value}
      (called : keyword ∈ ["CALL", "EXEC", "EXECUTE"]) (opens : k.isKeyword keyword = true)
      (named : t.name? = some name) (passed : ArgumentsOf ctx [] p fields) :
      StatementOf ctx (k :: t :: p) { kind := .procedure, fields, procedureName := some name }
  | block {k t e : Token} {p v w : List Token} {name : String} {fields : OrderedMap Value}
      (opens : k.isKeyword "BEGIN" = true) (named : t.name? = some name)
      (passed : ArgumentsOf ctx (v ++ e :: w) p fields) (first : Separator v)
      (closes : e.isKeyword "END" = true) (second : Separator w) :
      StatementOf ctx (k :: t :: (p ++ (v ++ e :: w)))
        { kind := .procedure, fields, procedureName := some name }

theorem argumentOf_iff {params : Params} {position : Nat} {t : Token} {e : String × Value} :
    t.isValue = true ∧ argumentOf params position t = .ok e ↔
      ArgumentOf params position [t] e := by
  constructor
  · rintro ⟨value, h⟩
    rw [argumentOf] at h
    split at h
    · next name placeholder =>
      cases bound : params.bind (.placeholder name) with
      | error e =>
        rw [bound] at h
        cases h
      | ok v =>
        rw [bound] at h
        cases h
        have given := Params.valueOf_iff.mpr ⟨value, (by rw [Params.valueOf, placeholder, bound])⟩
        cases given with
        | literal _ plain => simp [placeholder, Value.isPlaceholder] at plain
        | bound _ same found plain =>
          obtain rfl := Value.placeholder.inj (placeholder.symm.trans same)
          exact .bound value placeholder found plain
    · next apart =>
      cases h
      refine .literal value ?_
      cases hl : t.literal with
      | placeholder name => exact absurd hl (apart name)
      | _ => rfl
  · intro h
    cases h with
    | literal value plain =>
      refine ⟨value, ?_⟩
      rw [argumentOf]
      split
      · next placeholder => simp [placeholder, Value.isPlaceholder] at plain
      · rfl
    | bound value placeholder found plain =>
      refine ⟨value, ?_⟩
      simp [argumentOf, placeholder, Params.bind, found, plain, Except.map]

theorem reads_argument {m m' : OrderedMap Value} :
    (argument ctx m).Reads p m' rest ↔
      ∃ e, ArgumentOf ctx.params (m.entries.length + 1) p e ∧ m.Grows [e] m' := by
  rw [argument, reads_value_bind]
  constructor
  · rintro ⟨t, s, rfl, value, h⟩
    obtain ⟨⟨name, v⟩, found, h⟩ := reads_ofExcept_bind.mp h
    dsimp only at h
    rw [reads_ite] at h
    obtain ⟨_, h⟩ | ⟨new, h⟩ := h
    · exact False.elim (not_reads_fail_bind h)
    · obtain ⟨rfl, rfl⟩ := reads_pure.mp h
      refine ⟨(name, v), argumentOf_iff.mp ⟨value, found⟩, OrderedMap.grows_cons.mpr ⟨?_, ?_⟩⟩
      · exact Bool.eq_false_iff.mpr new
      · exact OrderedMap.grows_nil.mpr rfl
  · rintro ⟨⟨name, v⟩, passed, grows⟩
    obtain ⟨new, same⟩ := OrderedMap.grows_cons.mp grows
    obtain ⟨t, rfl⟩ : ∃ t, p = [t] := by cases passed <;> exact ⟨_, rfl⟩
    obtain ⟨value, found⟩ := argumentOf_iff.mpr passed
    refine ⟨t, [], rfl, value, reads_ofExcept_bind.mpr ⟨(name, v), found, ?_⟩⟩
    dsimp only
    rw [reads_ite]
    exact .inr ⟨Bool.eq_false_iff.mp new, reads_pure.mpr ⟨rfl, OrderedMap.grows_nil.mp same⟩⟩

theorem reads_arguments {fields : OrderedMap Value} :
    (arguments ctx).Reads p fields rest ↔ ArgumentsOf ctx rest p fields := by
  rw [arguments, reads_eat_bind]
  have passes_iff : ∀ {q rest fields}, (separated (argument ctx) ∅).Reads q fields rest ↔
      Numbered (fun n => ArgumentOf ctx.params (n + 1)) rest 0 q fields.entries := by
    intro q rest fields
    rw [reads_separated, passes_iff_grows (J := fun n => ArgumentOf ctx.params (n + 1))
      reads_argument]
    constructor
    · rintro ⟨es, items, rfl⟩
      exact items
    · intro items
      exact ⟨_, items, rfl⟩
  constructor
  · rintro (⟨s, rfl, h⟩ | ⟨ended, h⟩)
    · obtain ⟨s, rfl, h⟩ | ⟨_, h⟩ := reads_eat_bind.mp h
      · obtain ⟨rfl, rfl⟩ := reads_pure.mp h
        exact .empty
      · obtain ⟨q, s, m, rfl, passed, h⟩ := reads_bind.mp h
        obtain ⟨s, rfl, h⟩ := reads_expect_bind.mp h
        obtain ⟨rfl, rfl⟩ := reads_pure.mp h
        exact .listed (passes_iff.mp passed)
    · obtain ⟨rfl, rfl⟩ := reads_pure.mp h
      exact .nothing ended
  · intro h
    cases h with
    | nothing ended => exact .inr ⟨ended, reads_pure.mpr ⟨rfl, rfl⟩⟩
    | empty =>
      exact .inl ⟨_, rfl, reads_eat_bind.mpr (.inl ⟨[], rfl, reads_pure.mpr ⟨rfl, rfl⟩⟩)⟩
    | @listed q _ items =>
      refine .inl ⟨_, rfl, reads_eat_bind.mpr (.inr ⟨?_, reads_bind.mpr ?_⟩)⟩
      · have filled : ∀ {n r e}, ArgumentOf ctx.params n r e → ∀ more,
            (r ++ more).head? ≠ some Token.rightParen := by
          intro n r e passed more closing
          cases passed <;> obtain rfl := Option.some.inj closing <;> contradiction
        generalize fields.entries = es at items
        cases items with
        | last only =>
          rw [List.append_assoc]
          exact filled only _
        | more first =>
          rw [List.append_assoc, List.append_assoc]
          exact filled first _
      · refine ⟨q, [.rightParen], fields, rfl, passes_iff.mpr items, ?_⟩
        exact reads_expect_bind.mpr ⟨[], rfl, reads_pure.mpr ⟨rfl, rfl⟩⟩

theorem mem_keywords_iff {k : String} :
    k ∈ keywords ↔ k ∈ ["CALL", "EXEC", "EXECUTE"] ∨ k = "BEGIN" := by
  simp [keywords, or_assoc]

theorem run_startKeyword {t : Token} {q : List Token}
    (opened : ∃ k ∈ keywords, t.isKeyword k = true) : startKeyword.run (t :: q) = (.ok (), q) := by
  have opens : (keywords.any fun k => t.isKeyword k) = true := List.any_eq_true.mpr opened
  rw [startKeyword, run_bind, run_peek, continueWith_ok, List.head?_cons]
  dsimp only
  rw [if_pos opens]
  rfl

theorem reads_startKeyword_bind {f : Unit → Reader Descriptor} :
    (startKeyword >>= f).Reads p d rest ↔
      ∃ t s, p = t :: s ∧ (∃ k ∈ keywords, t.isKeyword k = true) ∧ (f ()).Reads s d rest := by
  rw [startKeyword, bind_assoc, reads_peek_bind]
  rcases p with _ | ⟨t, p⟩
  · simp only [reduceCtorEq, false_and, exists_const, iff_false]
    intro h
    split at h
    · exact not_reads_fail_bind h
    · next t found =>
      split at h
      · -- the keyword would be taken from the tokens that are left
        rw [bind_assoc] at h
        obtain ⟨t, s, taken, _⟩ | ⟨_, rfl, _⟩ := reads_next_bind.mp h
        · cases taken
        · cases found
      · exact not_reads_fail_bind h
  · simp only [List.cons_append, List.head?_cons, List.cons.injEq]
    by_cases opens : (keywords.any fun k => t.isKeyword k) = true
    · rw [if_pos opens, bind_assoc, reads_next_bind]
      constructor
      · rintro (⟨_, _, ⟨rfl, rfl⟩, h⟩ | ⟨missing, _⟩)
        · exact ⟨t, p, ⟨rfl, rfl⟩, List.any_eq_true.mp opens, h⟩
        · cases missing
      · rintro ⟨_, _, ⟨rfl, rfl⟩, _, h⟩
        exact .inl ⟨t, p, rfl, h⟩
    · rw [if_neg opens]
      constructor
      · intro h
        exact False.elim (not_reads_fail_bind h)
      · rintro ⟨_, _, ⟨rfl, rfl⟩, found, _⟩
        exact absurd (List.any_eq_true.mpr found) opens

/-- A semicolon is taken if it is next. -/
theorem reads_separator_bind {g : Reader Descriptor} :
    (eat .semicolon >>= fun _ => g).Reads p d rest ↔
      ∃ v s, p = v ++ s ∧ Separator v ∧ (v = [] → (s ++ rest).head? ≠ some .semicolon) ∧
        g.Reads s d rest := by
  rw [reads_eat_bind]
  constructor
  · rintro (⟨s, rfl, h⟩ | ⟨ended, h⟩)
    · exact ⟨[.semicolon], s, rfl, .semicolon, by simp, h⟩
    · exact ⟨[], p, rfl, .nothing, fun _ => ended, h⟩
  · rintro ⟨v, s, rfl, separator, ended, h⟩
    cases separator with
    | nothing => exact .inr ⟨ended rfl, h⟩
    | semicolon => exact .inl ⟨s, rfl, h⟩

theorem reads_statement :
    (statement ctx).Reads p d rest ↔ rest = [] ∧ StatementOf ctx p d := by
  rw [statement, reads_atKeyword_bind]
  constructor
  · rintro (⟨block, h⟩ | ⟨apart, h⟩)
    · obtain ⟨k, s, rfl, _, h⟩ := reads_startKeyword_bind.mp h
      obtain ⟨t, s, name, rfl, named, h⟩ := reads_name_bind.mp h
      obtain ⟨q, s, fields, rfl, passed, h⟩ := reads_bind.mp h
      obtain ⟨v, s, rfl, first, _, h⟩ := reads_separator_bind.mp h
      obtain ⟨e, s, rfl, closes, h⟩ := reads_expectKeyword_bind.mp h
      obtain ⟨w, s, rfl, second, _, h⟩ := reads_separator_bind.mp h
      obtain ⟨rfl, rfl, h⟩ := reads_finish_bind.mp h
      obtain ⟨_, rfl⟩ := reads_pure.mp h
      simp only [List.append_nil, atKeyword_cons] at passed block
      rw [List.append_nil]
      exact ⟨rfl, .block block named (reads_arguments.mp passed) first closes second⟩
    · obtain ⟨k, s, rfl, ⟨keyword, listed, opens⟩, h⟩ := reads_startKeyword_bind.mp h
      obtain ⟨t, s, name, rfl, named, h⟩ := reads_name_bind.mp h
      obtain ⟨q, s, fields, rfl, passed, h⟩ := reads_bind.mp h
      obtain ⟨rfl, rfl, h⟩ := reads_finish_bind.mp h
      obtain ⟨_, rfl⟩ := reads_pure.mp h
      have called : keyword ∈ ["CALL", "EXEC", "EXECUTE"] := by
        rcases mem_keywords_iff.mp listed with called | rfl
        · exact called
        · exact absurd opens (by simpa using apart)
      rw [List.append_nil]
      exact ⟨rfl, .call called opens named (reads_arguments.mp passed)⟩
  · rintro ⟨rfl, h⟩
    cases h with
    | @call k t p name keyword fields called opens named passed =>
      have apart : ¬ k.isKeyword "BEGIN" = true := by
        intro block
        have same := Token.upper_eq_of_isKeyword opens block
        have differ : ∀ c ∈ ["CALL", "EXEC", "EXECUTE"], Text.upper c ≠ Text.upper "BEGIN" := by
          decide
        exact differ keyword called same
      have listed : keyword ∈ keywords := mem_keywords_iff.mpr (.inl called)
      refine .inr ⟨apart, reads_startKeyword_bind.mpr ?_⟩
      refine ⟨k, t :: p, rfl, ⟨keyword, listed, opens⟩, ?_⟩
      refine reads_name_bind.mpr ⟨t, p, name, rfl, named, reads_bind.mpr ?_⟩
      refine ⟨p, [], fields, (List.append_nil p).symm, reads_arguments.mpr passed, ?_⟩
      exact reads_finish_bind.mpr ⟨rfl, rfl, reads_pure.mpr ⟨rfl, rfl⟩⟩
    | @block k t e p v w name fields opens named passed first closes second =>
      have apart : e ≠ .semicolon := Token.ne_of_isKeyword closes rfl
      refine .inl ⟨opens, reads_startKeyword_bind.mpr ⟨k, _, rfl, ⟨"BEGIN", by decide, opens⟩, ?_⟩⟩
      refine reads_name_bind.mpr ⟨t, _, name, rfl, named, reads_bind.mpr ?_⟩
      refine ⟨p, v ++ e :: w, fields, rfl, reads_arguments.mpr (by simpa using passed), ?_⟩
      refine reads_separator_bind.mpr ⟨v, e :: w, rfl, first, fun _ => by simpa using apart, ?_⟩
      refine reads_expectKeyword_bind.mpr ⟨e, w, rfl, closes, reads_separator_bind.mpr ?_⟩
      refine ⟨w, [], (List.append_nil w).symm, second, fun _ => by simp, ?_⟩
      exact reads_finish_bind.mpr ⟨rfl, rfl, reads_pure.mpr ⟨rfl, rfl⟩⟩

end Procedure

/-! ### Selections -/

namespace Select

/-- What follows FROM: the table and the clauses of a selection. -/
inductive ClausesOf (ctx : Context) : List Token → TableRef → List Lookup → Option Predicate →
    List OrderElement → Option Limit → Prop where
  | clauses {t j p o l : List Token} {table : TableRef} {joins : List Lookup}
      {filter : Option Predicate} {orderBy : List OrderElement} {limit : Option Limit}
      (named : TableOf (j ++ (p ++ (o ++ l))) t table)
      (joined : Join.JoinsOf table (p ++ (o ++ l)) j joins)
      (filtered : Condition.WhereOf ctx (o ++ l) p filter)
      (ordered : Ordering.OrderByOf l o orderBy) (limited : Ordering.LimitOf ctx [] l limit) :
      ClausesOf ctx (t ++ (j ++ (p ++ (o ++ l)))) table joins filter orderBy limit

inductive StatementOf (ctx : Context) : List Token → Descriptor → Prop where
  | select {k f : Token} {w c q : List Token} {distinct : Bool} {columns : List Column}
      {table : TableRef} {joins : List Lookup} {filter : Option Predicate}
      {orderBy : List OrderElement} {limit : Option Limit} {shown : Projection}
      (select : k.isKeyword "SELECT" = true) (marked : Marked "DISTINCT" (c ++ f :: q) w distinct)
      (listed : Items ColumnOf (f :: q) c columns) (from_ : f.isKeyword "FROM" = true)
      (clauses : ClausesOf ctx q table joins filter orderBy limit)
      (shows : projection ctx.settings.primaryKey columns = .ok shown) :
      StatementOf ctx (k :: (w ++ (c ++ f :: q)))
        { kind := if distinct then .command else .select
          table := table.name
          filter, joins, orderBy, limit
          projection := shown.included
          aliases := shown.aliases
          distinctOn := if distinct then some table.name else none }

theorem reads_statement :
    (statement ctx).Reads p d rest ↔ rest = [] ∧ StatementOf ctx p d := by
  rw [statement, reads_expectKeyword_bind]
  constructor
  · rintro ⟨k, s, rfl, select, h⟩
    obtain ⟨w, s, distinct, rfl, marked, h⟩ := reads_marked_bind.mp h
    obtain ⟨c, s, cs, rfl, listed, h⟩ := reads_bind.mp h
    obtain ⟨f, s, rfl, from_, h⟩ := reads_expectKeyword_bind.mp h
    obtain ⟨t, s, table, rfl, named, h⟩ := reads_bind.mp h
    obtain ⟨j, s, joins, rfl, joined, h⟩ := reads_bind.mp h
    obtain ⟨q, s, filter, rfl, filtered, h⟩ := reads_bind.mp h
    obtain ⟨o, s, elements, rfl, ordered, h⟩ := reads_bind.mp h
    obtain ⟨l, s, limit, rfl, limited, h⟩ := reads_bind.mp h
    obtain ⟨rfl, rfl, h⟩ := reads_finish_bind.mp h
    obtain ⟨shown, shows, h⟩ := reads_ofExcept_bind.mp h
    obtain ⟨_, rfl⟩ := reads_pure.mp h
    simp only [List.append_nil] at marked listed named joined filtered ordered limited
    rw [List.append_nil]
    have clauses : ClausesOf ctx (t ++ (j ++ (q ++ (o ++ l)))) table joins filter elements limit :=
      .clauses (TableRef.reads_reader.mp named) (Join.reads_joins.mp joined)
        (Condition.reads_whereClause?.mp filtered) (Ordering.reads_orderBy.mp ordered)
        (Ordering.reads_limit?.mp limited)
    exact ⟨rfl, .select select marked (reads_columns.mp listed) from_ clauses shows⟩
  · rintro ⟨rfl, h⟩
    cases h with
    | @select k f w c q distinct cs table joins filter elements limit shown select marked listed
        from_ clauses shows =>
      cases clauses with
      | @clauses t j p o l _ _ _ _ _ named joined filtered ordered limited =>
        refine ⟨k, _, rfl, select, reads_marked_bind.mpr ⟨w, _, distinct, rfl, ?_, ?_⟩⟩
        · rw [List.append_nil]
          exact marked
        · refine reads_bind.mpr ⟨c, _, cs, rfl, reads_columns.mpr ?_, ?_⟩
          · rw [List.append_nil]
            exact listed
          refine reads_expectKeyword_bind.mpr ⟨f, _, rfl, from_, reads_bind.mpr ?_⟩
          refine ⟨t, _, table, rfl, TableRef.reads_reader.mpr ?_, reads_bind.mpr ?_⟩
          · rw [List.append_nil]
            exact named
          refine ⟨j, _, joins, rfl, Join.reads_joins.mpr ?_, reads_bind.mpr ?_⟩
          · rw [List.append_nil]
            exact joined
          refine ⟨p, _, filter, rfl, Condition.reads_whereClause?.mpr ?_, reads_bind.mpr ?_⟩
          · rw [List.append_nil]
            exact filtered
          refine ⟨o, l, elements, rfl, Ordering.reads_orderBy.mpr ?_, reads_bind.mpr ?_⟩
          · rw [List.append_nil]
            exact ordered
          refine ⟨l, [], limit, (List.append_nil l).symm, Ordering.reads_limit?.mpr limited, ?_⟩
          refine reads_finish_bind.mpr ⟨rfl, rfl, reads_ofExcept_bind.mpr ⟨shown, shows, ?_⟩⟩
          exact reads_pure.mpr ⟨rfl, rfl⟩

end Select

/-! ### Statements of every kind -/

namespace Statement

def Opening.keywords : Opening → List String
  | .select => ["SELECT"]
  | .insert => ["INSERT"]
  | .update => ["UPDATE"]
  | .delete => ["DELETE"]
  | .procedure => Procedure.keywords

theorem opening?_eq_some_iff {text : String} {o : Opening} :
    opening? text = some o ↔ Text.upper text ∈ o.keywords := by
  constructor
  · intro h
    rw [opening?] at h
    split at h
    · next spelt => cases h; simp [Opening.keywords, spelt]
    · next spelt => cases h; simp [Opening.keywords, spelt]
    · next spelt => cases h; simp [Opening.keywords, spelt]
    · next spelt => cases h; simp [Opening.keywords, spelt]
    · split at h
      · next called => cases h; exact List.contains_iff_mem.mp called
      · cases h
  · intro h
    generalize spelt : Text.upper text = k at h
    rw [opening?, spelt]
    cases o <;> simp only [Opening.keywords, Procedure.keywords, List.mem_cons, List.not_mem_nil,
      or_false] at h
    case procedure => rcases h with rfl | rfl | rfl | rfl <;> rfl
    all_goals subst h; rfl

theorem Opening.upper_of_mem_keywords {k : String} {o : Opening} (listed : k ∈ o.keywords) :
    Text.upper k = k := by
  have capital : ∀ o : Opening, ∀ k ∈ o.keywords, Text.upper k = k := by
    intro o
    cases o <;> decide
  exact capital o k listed

/-- A first word opens a statement by one of the keywords, which are in upper case. -/
theorem opening?_eq_some_iff_isKeyword {text : String} {o : Opening} :
    opening? text = some o ↔ ∃ k ∈ o.keywords, (Token.word text).isKeyword k = true := by
  rw [opening?_eq_some_iff]
  constructor
  · intro listed
    have fixed := Opening.upper_of_mem_keywords listed
    exact ⟨_, listed, Text.sameWord_iff_upper_eq.mpr fixed.symm⟩
  · rintro ⟨k, listed, same⟩
    rw [Text.sameWord_iff_upper_eq.mp same, Opening.upper_of_mem_keywords listed]
    exact listed

/-- The statements of a kind with their descriptors. -/
def Opening.FormOf (ctx : Context) : Opening → List Token → Descriptor → Prop
  | .select => Select.StatementOf ctx
  | .insert => Insert.StatementOf ctx
  | .update => Update.StatementOf ctx
  | .delete => Delete.StatementOf ctx
  | .procedure => Procedure.StatementOf ctx

theorem reads_readerOf {o : Opening} :
    (readerOf ctx o).Reads p d rest ↔ rest = [] ∧ o.FormOf ctx p d := by
  cases o with
  | select => exact Select.reads_statement
  | insert => exact Insert.reads_statement
  | update => exact Update.reads_statement
  | delete => exact Delete.reads_statement
  | procedure => exact Procedure.reads_statement

theorem Opening.FormOf.opens {o : Opening} (h : o.FormOf ctx p d) :
    ∃ text q, p = .word text :: q ∧ opening? text = some o := by
  have first : ∃ t q k, p = t :: q ∧ k ∈ o.keywords ∧ t.isKeyword k = true := by
    cases o with
    | select => cases h; exact ⟨_, _, "SELECT", rfl, by decide, ‹_›⟩
    | insert => cases h; exact ⟨_, _, "INSERT", rfl, by decide, ‹_›⟩
    | update => cases h; exact ⟨_, _, "UPDATE", rfl, by decide, ‹_›⟩
    | delete => cases h; exact ⟨_, _, "DELETE", rfl, by decide, ‹_›⟩
    | procedure =>
      cases h with
      | call called opens =>
        exact ⟨_, _, _, rfl, Procedure.mem_keywords_iff.mpr (.inl called), opens⟩
      | block opens => exact ⟨_, _, "BEGIN", rfl, by decide, opens⟩
  obtain ⟨t, q, k, rfl, listed, same⟩ := first
  cases t with
  | word text => exact ⟨text, q, rfl, opening?_eq_some_iff_isKeyword.mpr ⟨k, listed, same⟩⟩
  | _ => cases same

/-- The first word selects the reader. -/
theorem ofTokens_of_opening? {text : String} {q : List Token} {o : Opening}
    (found : opening? text = some o) :
    ofTokens ctx (.word text :: q) = ((readerOf ctx o).run (.word text :: q)).1 := by
  simp [ofTokens, reader, found]

/-- Tokens have a descriptor exactly when they are a statement of some kind with it. -/
theorem ofTokens_eq_ok_iff {tokens : List Token} :
    ofTokens ctx tokens = .ok d ↔ ∃ o : Opening, o.FormOf ctx tokens d := by
  constructor
  · intro h
    have opened : ∃ text q o, tokens = .word text :: q ∧ opening? text = some o := by
      rcases tokens with _ | ⟨t, q⟩
      · simp [ofTokens, reader] at h
      · cases t with
        | word text =>
          cases found : opening? text with
          | none => simp [ofTokens, reader, found] at h
          | some o => exact ⟨text, q, o, rfl, found⟩
        | _ => simp [ofTokens, reader] at h
    obtain ⟨text, q, o, rfl, found⟩ := opened
    rw [ofTokens_of_opening? found] at h
    rcases run : (readerOf ctx o).run (.word text :: q) with ⟨outcome, rest⟩
    rw [run] at h
    obtain rfl : outcome = .ok d := h
    obtain ⟨p, hp, reads⟩ := run_eq_ok_iff.mp run
    obtain ⟨rfl, form⟩ := reads_readerOf.mp reads
    rw [hp, List.append_nil]
    exact ⟨o, form⟩
  · rintro ⟨o, form⟩
    obtain ⟨text, q, rfl, found⟩ := form.opens
    have reads : (readerOf ctx o).Reads (.word text :: q) d [] := reads_readerOf.mpr ⟨rfl, form⟩
    rw [Reads, List.append_nil] at reads
    rw [ofTokens_of_opening? found, reads]

end Statement

/-- A text compiles to a descriptor exactly when its tokens are a statement with it. -/
theorem compile_eq_ok_iff {settings : Settings} {text : String} {params : Params} :
    compile settings text params = .ok d ↔ ∃ tokens o,
      Token.tokenize (Statement.normalize text) = .ok tokens ∧
        Statement.Opening.FormOf ⟨settings, params⟩ o tokens d := by
  rw [compile]
  cases tokenized : Token.tokenize (Statement.normalize text) with
  | error e => simp [bind, Except.bind]
  | ok tokens => simp [bind, Except.bind, Statement.ofTokens_eq_ok_iff]

end SqlBridge
