import SqlBridge.Proofs.Sql.Tokens
import SqlBridge.Proofs.Statement.Text
import SqlBridge.Sql.Render

/-!
# Writes read back

An insertion, an update or a deletion is rendered as text that compiles to it again, once its
parameters have names. The filter may be a tree of any shape, since every comparison and every group
of it is in parentheses: a group becomes a chain of one connective one level deeper.
-/

namespace SqlBridge

/-- Every leaf compares a field that does not end in a point with a value that is given, and every
group joins two predicates at least. -/
inductive Predicate.Plain : Predicate → Prop where
  | comparison {field : String} {operator : Operator} {value : Value}
      (closed : field.toList.getLast? ≠ some '.') (present : value ≠ .null)
      (bound : value.isPlaceholder = false) : Plain (.comparison field operator value)
  | group {logic : Logic} {children : List Predicate} (two : 2 ≤ children.length)
      (all : ∀ p ∈ children, Plain p) : Plain (.group logic children)

/-- An insertion, an update or a deletion with nothing but what such a statement says. -/
inductive Descriptor.PlainWrite : Descriptor → Prop where
  | insert {table : String} {fields : OrderedMap Value} (filled : fields.entries ≠ [])
      (bound : ∀ v ∈ fields.values, v.isPlaceholder = false) :
      PlainWrite { kind := .insert, table, fields }
  | update {table : String} {fields : OrderedMap Value} {filter : Option Predicate}
      (filled : fields.entries ≠ []) (bound : ∀ v ∈ fields.values, v.isPlaceholder = false)
      (plain : ∀ p ∈ filter, p.Plain) : PlainWrite { kind := .update, table, fields, filter }
  | delete {table : String} {filter : Option Predicate} (plain : ∀ p ∈ filter, p.Plain) :
      PlainWrite { kind := .delete, table, filter }

namespace Sql

open Token

variable {params : Params} {ctx : Context}

/-! ### Fixed texts -/

theorem separates_connective (l : Logic) :
    ∃ t, Condition.Connects l t ∧ Separates (connective l) [t] := by
  cases l with
  | and =>
    refine ⟨.word "AND", .word (.and (by decide)), ⟨?_, by decide⟩⟩
    exact fixes_spaced [' '] [.word "AND"] (by decide)
  | or =>
    refine ⟨.word "OR", .word (.or (by decide)), ⟨?_, by decide⟩⟩
    exact fixes_spaced [' '] [.word "OR"] (by decide)

theorem separates_operator (o : Operator) :
    Separates (" " ++ o.symbol ++ " ") [.symbol o.symbol] := by
  cases o
  all_goals exact ⟨fixes_spaced [' '] [.symbol _] (by decide), by decide⟩

theorem separates_columns : Separates " (" [.leftParen] := by
  have spaced : Spaced " (" [' '] [] ['('] := by decide
  exact ⟨spaced.fixes fun _ => scans_punctuation rfl, by decide⟩

theorem separates_values : Separates ") VALUES (" [.rightParen, .word "VALUES", .leftParen] := by
  have spaced : Spaced ") VALUES (" [] [.rightParen, .word "VALUES"] ['('] := by decide
  exact ⟨spaced.fixes fun _ => scans_punctuation rfl, by decide⟩

/-! ### Values -/

theorem gives_param {v : Value} (bound : v.isPlaceholder = false) :
    Gives params (fun ts => Insert.ValueAt params ts v) [.param v] := by
  intro n given
  have named : (Token.word (":" ++ n.repr)).literal = .placeholder n.repr :=
    Literal.ofWord_placeholder (Literal.repr_ne_nil n)
  exact ⟨_, ⟨_, rfl, .bound rfl named given.1 bound⟩, yields_param v⟩

theorem value_of_ne_null {v : Value} (present : v ≠ .null) (bound : v.isPlaceholder = false) :
    value v = .ok [.param v] := by
  cases v with
  | null => exact absurd rfl present
  | placeholder name => cases bound
  | _ => rfl

theorem value_gives {v : Value} (bound : v.isPlaceholder = false) :
    ∃ ps, value v = .ok ps ∧ ∀ params, Gives params (fun ts => Insert.ValueAt params ts v) ps := by
  by_cases null : v = .null
  · subst null
    refine ⟨[.fixed "NULL"], rfl, fun params n _ => ⟨_, ⟨.word "NULL", rfl, ?_⟩, yields_null⟩⟩
    have literal : (Token.word "NULL").literal = .null := by decide
    have given : params.ValueOf (.word "NULL") (Token.word "NULL").literal :=
      .literal rfl (by decide)
    rwa [literal] at given
  · exact ⟨_, value_of_ne_null null bound, fun params => gives_param bound⟩

theorem mapM_ok {α : Type} {f : α → Except Error (List Part)} {R : α → List Part → Prop}
    {as : List α} (each : ∀ a ∈ as, ∃ ps, f a = .ok ps ∧ R a ps) :
    ∃ pss, as.mapM f = .ok pss ∧ List.Forall₂ R as pss := by
  induction as with
  | nil => exact ⟨[], rfl, .nil⟩
  | cons a as ih =>
    obtain ⟨⟨ps, here, related⟩, others⟩ := List.forall_mem_cons.mp each
    obtain ⟨pss, rest, all⟩ := ih others
    refine ⟨ps :: pss, ?_, .cons related all⟩
    rw [List.mapM_cons, here, rest]
    rfl

/-! ### Predicates -/

theorem predicates_eq_mapM (ps : List Predicate) : predicates ps = ps.mapM predicate := by
  induction ps with
  | nil => rfl
  | cons p ps ih => rw [predicates, List.mapM_cons, ih]

theorem gives_comparison {field : String} {o : Operator} {v : Value}
    (closed : field.toList.getLast? ≠ some '.') (bound : v.isPlaceholder = false) :
    Gives ctx.params (fun ts => Condition.ConditionOf ctx ts (.comparison field o v))
      (qualified field ++ [.fixed (" " ++ o.symbol ++ " "), .param v]) := by
  apply ((gives_qualified closed).join (separates_operator o) (gives_param bound)).imp
  rintro _ ⟨_, _, rfl, ⟨t, rfl, named⟩, ⟨u, rfl, given⟩⟩
  exact .comparison named (List.mem_of_mem_head? o.head?_symbols) given

/-- Terms with one connective before each are the tail of a chain. -/
theorem tailAt_of_forall₂ {d : Nat} {l : Logic} {u : Token} (connects : Condition.Connects l u)
    {tss : List (List Token)} {xs : List Predicate}
    (terms : List.Forall₂ (fun ts x => ∃ cs, Condition.TermAt ctx d ts x cs) tss xs) :
    ∃ cs, Condition.TailAt ctx d (tss.flatMap (u :: ·)) (xs.map (l, ·)) cs := by
  induction terms with
  | nil => exact ⟨[], .nil⟩
  | @cons ts x tss xs first _ ih =>
    obtain ⟨cs, first⟩ := first
    obtain ⟨cs', others⟩ := ih
    exact ⟨cs ++ cs', .cons connects first others⟩

theorem gives_chain {d : Nat} {l : Logic} {children : List Predicate} {pss : List (List Part)}
    (two : 2 ≤ children.length)
    (each : List.Forall₂ (fun x => Gives ctx.params fun ts => ∃ cs, Condition.TermAt ctx d ts x cs)
      children pss) :
    Gives ctx.params (fun ts => ∃ cs, Condition.ChainAt ctx d ts (.group l children) cs)
      (separatedBy (connective l) pss) := by
  obtain ⟨u, connects, between⟩ := separates_connective l
  rcases children with _ | ⟨first, _ | ⟨second, rest⟩⟩
  · cases two
  · simp at two
  · cases each with
    | cons head tail =>
      apply (gives_separatedBy between head tail).imp
      rintro _ ⟨vs, tss, rfl, ⟨cs, term⟩, terms⟩
      obtain ⟨cs', others⟩ := tailAt_of_forall₂ connects terms
      rw [← Predicate.ofChain_of_single_logic]
      exact ⟨cs ++ cs', .fold term others⟩

/-- Parts in parentheses are a term one level further out. -/
theorem gives_enclosed {d : Nat} {x : Predicate} {ps : List Part}
    (room : d + 1 ≤ ctx.settings.maxPredicateDepth.toNat)
    (inner : Gives ctx.params (fun ts => ∃ cs, Condition.ChainAt ctx (d + 1) ts x cs) ps) :
    Gives ctx.params (fun ts => ∃ cs, Condition.TermAt ctx d ts x cs)
      (.fixed "(" :: (ps ++ [.fixed ")"])) := by
  have opens : Fixes "(" [.leftParen] := fixes_mark rfl "(" rfl
  apply (inner.closed.after opens).imp
  rintro _ ⟨_, rfl, _, rfl, cs, chain⟩
  exact ⟨cs, .enclosed room chain⟩

/-- A plain predicate is rendered as a term that is the predicate again. -/
theorem predicate_gives {x : Predicate} (plain : x.Plain) :
    ∃ ps, predicate x = .ok ps ∧ ∀ (ctx : Context) (d : Nat),
      d + x.height ≤ ctx.settings.maxPredicateDepth.toNat →
        Gives ctx.params (fun ts => ∃ cs, Condition.TermAt ctx d ts x cs) ps := by
  induction plain with
  | @comparison field o v closed present bound =>
    have compared : comparedWith field o v = .ok [.fixed (" " ++ o.symbol ++ " "), .param v] := by
      have given : v.isNull = false := by cases v <;> first | rfl | exact absurd rfl present
      simp only [comparedWith, given, Bool.false_eq_true, if_false, value_of_ne_null present bound]
      rfl
    have rendered : predicate (.comparison field o v) = .ok (.fixed "(" ::
        (qualified field ++ [.fixed (" " ++ o.symbol ++ " "), .param v] ++ [.fixed ")"])) := by
      rw [predicate, compared]
      rfl
    refine ⟨_, rendered, fun ctx d room => ?_⟩
    refine gives_enclosed room ((gives_comparison closed bound).imp fun ts single => ?_)
    have term : Condition.TermAt ctx (d + 1) ts _ _ := .condition single
    exact ⟨_, term.chain⟩
  | @group l children two _ ih =>
    have rendered : ∀ p ∈ children, ∃ ps, predicate p = .ok ps ∧ p ∈ children ∧
        ∀ (ctx : Context) (d : Nat), d + p.height ≤ ctx.settings.maxPredicateDepth.toNat →
          Gives ctx.params (fun ts => ∃ cs, Condition.TermAt ctx d ts p cs) ps := by
      intro p listed
      obtain ⟨ps, here, gives⟩ := ih p listed
      exact ⟨ps, here, listed, gives⟩
    obtain ⟨pss, inner, each⟩ := mapM_ok rendered
    have whole : predicate (.group l children) =
        .ok (.fixed "(" :: (separatedBy (connective l) pss ++ [.fixed ")"])) := by
      rw [predicate, predicates_eq_mapM, inner]
      rfl
    refine ⟨_, whole, fun ctx d room => ?_⟩
    rw [Predicate.height] at room
    have inside : d + 1 ≤ ctx.settings.maxPredicateDepth.toNat := by omega
    -- the children stand inside one more pair of parentheses
    refine gives_enclosed inside (gives_chain two (each.imp ?_))
    rintro p ps ⟨listed, gives⟩
    have lower := Predicate.height_le_heights listed
    have deep : d + 1 + p.height ≤ ctx.settings.maxPredicateDepth.toNat := by omega
    exact gives ctx (d + 1) deep

/-! ### Clauses -/

theorem whereClause_gives {filter : Option Predicate} (plain : ∀ x ∈ filter, x.Plain) :
    ∃ qs, whereClause filter = .ok qs ∧ ∀ ctx : Context,
      (∀ x ∈ filter, x.height ≤ ctx.settings.maxPredicateDepth.toNat) →
        ∀ {J : List Token → Prop} {ps : List Part}, Gives ctx.params J ps →
          Gives ctx.params
            (fun ts => ∃ as bs, ts = as ++ bs ∧ J as ∧ Condition.WhereOf ctx [] bs filter)
            (ps ++ qs) := by
  cases filter with
  | none =>
    refine ⟨[], rfl, fun ctx _ J ps before => ?_⟩
    rw [List.append_nil]
    exact before.imp fun ts here => ⟨ts, [], by simp, here, .absent (by simp)⟩
  | some x =>
    have where_ : Separates " WHERE " [.word "WHERE"] :=
      ⟨fixes_spaced [' '] _ (by decide), by decide⟩
    obtain ⟨qs, rendered, gives⟩ := predicate_gives (plain x rfl)
    have clause : whereClause (some x) = .ok (.fixed " WHERE " :: qs) := by
      rw [whereClause, rendered]
      rfl
    refine ⟨_, clause, fun ctx room J ps before => ?_⟩
    have low : 0 + x.height ≤ ctx.settings.maxPredicateDepth.toNat := by
      have height := room x rfl
      omega
    have term := gives ctx 0 low
    apply (before.join where_ term).imp
    rintro _ ⟨as, bs, rfl, here, cs, term⟩
    exact ⟨as, .word "WHERE" :: bs, rfl, here, .clause (by decide) term.chain .nil⟩

theorem assignment_gives {e : String × Value} (bound : e.2.isPlaceholder = false) :
    ∃ ps, assignment e = .ok ps ∧
      ∀ params, Gives params (fun ts => Update.AssignmentOf params ts e) ps := by
  obtain ⟨ps, rendered, gives⟩ := value_gives bound
  have whole : assignment e = .ok (.identifier e.1 :: .fixed " = " :: ps) := by
    rw [assignment, rendered]
    rfl
  refine ⟨_, whole, fun params => ?_⟩
  have equals : Separates " = " [.symbol "="] := separates_operator .eq
  apply ((gives_identifier e.1).join equals (gives params)).imp
  rintro _ ⟨_, _, rfl, rfl, ⟨u, rfl, given⟩⟩
  exact .assignment rfl given

theorem not_isEmpty {fields : OrderedMap Value} (filled : fields.entries ≠ []) :
    ¬ fields.isEmpty = true := by
  rw [OrderedMap.isEmpty, List.isEmpty_iff]
  exact filled

theorem gives_names {names : List String} (filled : names ≠ []) :
    Gives params (fun ts => ∀ rest, rest.head? ≠ some Token.comma →
      Reader.Items (fun _ => Insert.NameAt) rest ts names)
      (separatedBy ", " (names.map fun column => [.identifier column])) := by
  refine gives_items filled (List.forall₂_map_right_iff.mpr ?_)
  refine List.forall₂_same.mpr fun column _ => (gives_identifier column).imp fun ts same => ?_
  exact ⟨_, same, rfl⟩

/-! ### Statements -/

theorem insert_gives {table : String} {fields : OrderedMap Value} (filled : fields.entries ≠ [])
    (bound : ∀ v ∈ fields.values, v.isPlaceholder = false) :
    ∃ ps, insert { kind := .insert, table, fields } = .ok (.fixed "INSERT INTO " :: ps) ∧
      ∀ ctx : Context, Gives ctx.params
        (fun ts => Insert.StatementOf ctx ts { kind := .insert, table, fields })
        (.fixed "INSERT INTO " :: ps) := by
  obtain ⟨pss, rendered, each⟩ := mapM_ok fun v listed => value_gives (bound v listed)
  refine ⟨[.identifier table] ++ .fixed " (" ::
    (separatedBy ", " (fields.keys.map fun column => [.identifier column]) ++
      .fixed ") VALUES (" :: (separatedBy ", " pss ++ [.fixed ")"])), ?_, fun ctx => ?_⟩
  · rw [insert, if_neg (not_isEmpty filled), rendered]
    simp [bind, Except.bind, pure, Except.pure]
  have into : Fixes "INSERT INTO " [.word "INSERT", .word "INTO"] :=
    fixes_spaced [] _ (by decide)
  have filledKeys : fields.keys ≠ [] := by simpa [OrderedMap.keys] using filled
  have filledValues : fields.values ≠ [] := by simpa [OrderedMap.values] using filled
  have row := gives_items (J := Insert.ValueAt ctx.params) filledValues
    (each.imp fun v ps gives => gives ctx.params)
  have tokens := (gives_identifier table).join separates_columns
    ((gives_names filledKeys).join separates_values row.closed)
  apply (tokens.after into).imp
  rintro _ ⟨_, rfl, _, _, rfl, rfl, p, _, rfl, names, q, rfl, row⟩
  have apart : ¬ Reader.AtKeyword "IGNORE" [.word "INTO"] := by
    rw [Reader.atKeyword_cons]
    decide
  have form : Insert.StatementOf ctx (.word "INSERT" :: ([] ++ .word "INTO" :: .quoted table ::
      .leftParen :: (p ++ .rightParen :: .word "VALUES" :: .leftParen ::
        (q ++ [.rightParen])))) _ :=
    .insert (by decide) (.absent apart) (by decide) rfl (names _ (by simp)) (.inl (by decide))
      (row _ (by simp))
  exact form

theorem update_gives {table : String} {fields : OrderedMap Value} {filter : Option Predicate}
    (filled : fields.entries ≠ []) (bound : ∀ v ∈ fields.values, v.isPlaceholder = false)
    (plain : ∀ x ∈ filter, x.Plain) :
    ∃ ps, update { kind := .update, table, fields, filter } = .ok (.fixed "UPDATE " :: ps) ∧
      ∀ ctx : Context, (∀ x ∈ filter, x.height ≤ ctx.settings.maxPredicateDepth.toNat) →
        Gives ctx.params
          (fun ts => Update.StatementOf ctx ts { kind := .update, table, fields, filter })
          (.fixed "UPDATE " :: ps) := by
  obtain ⟨pss, rendered, each⟩ := mapM_ok (f := assignment) fun e listed =>
    assignment_gives (bound e.2 (List.mem_map_of_mem listed))
  obtain ⟨qs, clause, filtered⟩ := whereClause_gives plain
  refine ⟨[.identifier table] ++ .fixed " SET " :: separatedBy ", " pss ++ qs, ?_,
    fun ctx room => ?_⟩
  · rw [update, if_neg (not_isEmpty filled), rendered, clause]
    simp [bind, Except.bind, pure, Except.pure]
  have first : Fixes "UPDATE " [.word "UPDATE"] :=
    fixes_spaced [] _ (by decide)
  have set_ : Separates " SET " [.word "SET"] :=
    ⟨fixes_spaced [' '] _ (by decide), by decide⟩
  have assignments := gives_items (J := Update.AssignmentOf ctx.params) filled
    (each.imp fun e ps gives => gives ctx.params)
  apply ((filtered ctx room ((gives_identifier table).join set_ assignments)).after first).imp
  rintro _ ⟨_, rfl, _, q, rfl, ⟨_, p, rfl, rfl, assigned⟩, filtered⟩
  exact .update (by decide) rfl (by decide) (assigned q filtered.head?_ne) filtered

theorem delete_gives {table : String} {filter : Option Predicate} (plain : ∀ x ∈ filter, x.Plain) :
    ∃ ps, delete { kind := .delete, table, filter } = .ok (.fixed "DELETE FROM " :: ps) ∧
      ∀ ctx : Context, (∀ x ∈ filter, x.height ≤ ctx.settings.maxPredicateDepth.toNat) →
        Gives ctx.params (fun ts => Delete.StatementOf ctx ts { kind := .delete, table, filter })
          (.fixed "DELETE FROM " :: ps) := by
  obtain ⟨qs, clause, filtered⟩ := whereClause_gives plain
  have whole : delete { kind := .delete, table, filter } =
      .ok (.fixed "DELETE FROM " :: ([.identifier table] ++ qs)) := by
    rw [delete, clause]
    rfl
  refine ⟨_, whole, fun ctx room => ?_⟩
  have first : Fixes "DELETE FROM " [.word "DELETE", .word "FROM"] :=
    fixes_spaced [] _ (by decide)
  apply ((filtered ctx room (gives_identifier table)).after first).imp
  rintro _ ⟨_, rfl, _, p, rfl, rfl, filtered⟩
  exact .delete (by decide) (by decide) rfl filtered

/-- A rendered statement compiles to what it was rendered from, if its tokens are that statement
wherever its parameters are bound. -/
theorem compile_of_gives {settings : Settings} {text : String} {ps : List Part} {c : Char}
    {o : Statement.Opening} {d : Descriptor} (rendered : parts d = .ok (.fixed text :: ps))
    (first : text.toList.head? = some c) (hc : Visible c)
    (gives : ∀ params,
      Gives params (fun ts => o.FormOf ⟨settings, params⟩ ts d) (.fixed text :: ps)) :
    ∃ q, render d = .ok q ∧ compile settings q.named q.bindings = .ok d := by
  have query : render d = .ok (Query.ofParts (.fixed text :: ps)) := by
    rw [render, rendered]
    rfl
  refine ⟨_, query, ?_⟩
  have bound := Query.bound_bindings (Query.ofParts (.fixed text :: ps))
  obtain ⟨ts, form, yields⟩ := gives _ 1 bound
  have named : (Query.ofParts (.fixed text :: ps)).named =
      String.ofList (spelt 1 (.fixed text :: ps)) :=
    congrArg String.ofList (named_textFrom yields.quiet)
  have starts : (spelt 1 (.fixed text :: ps)).head? = some c := by
    rw [spelt, List.head?_append, first, Option.some_or]
  obtain ⟨_, ends, hd⟩ := yields.visible
  have scanned : Scans _ ts [] := yields.scans [] (by simp [Delimited])
  have compiled : compile settings
      (String.ofList ([] ++ (spelt 1 (.fixed text :: ps) ++ []))) _ = .ok d :=
    compile_of_scans (by simp) (by simp) starts ends hc hd scanned form
  rw [List.nil_append, List.append_nil] at compiled
  rw [named]
  exact compiled

end Sql

/-- A plain write is rendered as text that compiles to it again, with the rendered parameters under
their numbers. -/
theorem compile_render {d : Descriptor} {settings : Settings} (write : d.PlainWrite)
    (room : ∀ x ∈ d.filter, x.height ≤ settings.maxPredicateDepth.toNat) :
    ∃ q, Sql.render d = .ok q ∧ compile settings q.named q.bindings = .ok d := by
  cases write with
  | insert filled bound =>
    obtain ⟨ps, rendered, gives⟩ := Sql.insert_gives filled bound
    exact Sql.compile_of_gives (o := .insert) rendered rfl ⟨by decide, by decide⟩ fun params =>
      gives ⟨settings, params⟩
  | update filled bound plain =>
    obtain ⟨ps, rendered, gives⟩ := Sql.update_gives filled bound plain
    exact Sql.compile_of_gives (o := .update) rendered rfl ⟨by decide, by decide⟩ fun params =>
      gives ⟨settings, params⟩ room
  | delete plain =>
    obtain ⟨ps, rendered, gives⟩ := Sql.delete_gives plain
    exact Sql.compile_of_gives (o := .delete) rendered rfl ⟨by decide, by decide⟩ fun params =>
      gives ⟨settings, params⟩ room

theorem compile_render_nested_update :
    ∃ q, Sql.render {
        kind := .update
        table := "a \"$1\""
        fields := .ofList [("x.y", .null), ("n", .int 1)]
        filter := some (.group .and [.group .and [.comparison "t.$2" .lt (.int 3),
          .comparison "" .eq (.str ":1")], .comparison "b" .ne (.bool true)]) } = .ok q ∧
      compile {} q.named q.bindings = .ok {
        kind := .update
        table := "a \"$1\""
        fields := .ofList [("x.y", .null), ("n", .int 1)]
        filter := some (.group .and [.group .and [.comparison "t.$2" .lt (.int 3),
          .comparison "" .eq (.str ":1")], .comparison "b" .ne (.bool true)]) } := by
  have pair : ∀ {p q : Predicate}, p.Plain → q.Plain → (Predicate.group .and [p, q]).Plain := by
    intro p q hp hq
    refine .group (by simp) fun r listed => ?_
    simp only [List.mem_cons, List.not_mem_nil, or_false] at listed
    rcases listed with rfl | rfl
    · exact hp
    · exact hq
  have inner : (Predicate.group .and [.comparison "t.$2" .lt (.int 3),
      .comparison "" .eq (.str ":1")]).Plain :=
    pair (.comparison (by decide) (by decide) rfl) (.comparison (by decide) (by decide) rfl)
  have filled : (OrderedMap.ofList [("x.y", Value.null), ("n", .int 1)]).entries ≠ [] := by decide
  have bound : ∀ v ∈ (OrderedMap.ofList [("x.y", Value.null), ("n", .int 1)]).values,
      v.isPlaceholder = false := by decide
  refine compile_render (.update filled bound fun p hp => ?_) fun p hp => ?_
  · obtain rfl := Option.some.inj hp
    exact pair inner (.comparison (by decide) (by decide) rfl)
  · obtain rfl := Option.some.inj hp
    decide

end SqlBridge
