import SqlBridge.Proofs.Condition.Nesting
import SqlBridge.Proofs.Statement.Error

/-!
# Parentheses of statements

No statement compiles unless its parentheses match: as many close as open, and none closes before
it is opened. Every clause of the grammar closes the parentheses that it opens. A WHERE clause whose
parentheses do not match fails in its syntax if its placeholders are bound.
-/

namespace SqlBridge

open Reader

namespace Token

variable {p q : List Token} {t : Token} {m n : Nat}

/-- As many parentheses close as open, and none closes before it is opened. -/
structure Matched (p : List Token) : Prop where
  settled : p.count .leftParen = p.count .rightParen
  opened : ∀ q, q <+: p → q.count .rightParen ≤ q.count .leftParen

/-! ### How many parentheses are open -/

/-- How many parentheses are open after a list of tokens, `n` being open before it. One that closes
nothing does not count. -/
def openAfter (n : Nat) : List Token → Nat
  | [] => n
  | .leftParen :: p => openAfter (n + 1) p
  | .rightParen :: p => openAfter (n - 1) p
  | _ :: p => openAfter n p

theorem openAfter_leftParen : openAfter n (.leftParen :: p) = openAfter (n + 1) p := by
  rw [openAfter]

theorem openAfter_rightParen : openAfter n (.rightParen :: p) = openAfter (n - 1) p := by
  rw [openAfter]

theorem openAfter_cons_of_ne (left : t ≠ .leftParen) (right : t ≠ .rightParen) :
    openAfter n (t :: p) = openAfter n p := by
  rw [openAfter]
  · exact left
  · exact right

theorem openAfter_append : openAfter n (p ++ q) = openAfter (openAfter n p) q := by
  induction p generalizing n with
  | nil => rfl
  | cons t p ih =>
    rw [List.cons_append]
    by_cases left : t = .leftParen
    · rw [left, openAfter_leftParen, openAfter_leftParen, ih]
    · by_cases right : t = .rightParen
      · rw [right, openAfter_rightParen, openAfter_rightParen, ih]
      · rw [openAfter_cons_of_ne left right, openAfter_cons_of_ne left right, ih]

/-- What follows nests on top of what is open. -/
theorem deepest_append : deepest n (p ++ q) = max (deepest n p) (deepest (openAfter n p) q) := by
  induction p generalizing n with
  | nil => exact (Nat.max_eq_right le_deepest).symm
  | cons t p ih =>
    rw [List.cons_append]
    by_cases left : t = .leftParen
    · rw [left, deepest_leftParen, deepest_leftParen, openAfter_leftParen, ih]
    · by_cases right : t = .rightParen
      · rw [right, deepest_rightParen, deepest_rightParen, openAfter_rightParen, ih, Nat.max_assoc]
      · rw [deepest_cons_of_ne left right, deepest_cons_of_ne left right,
          openAfter_cons_of_ne left right, ih]

theorem deepest_replicate_leftParen : deepest n (List.replicate m .leftParen) = n + m := by
  induction m generalizing n with
  | zero => rfl
  | succ m ih =>
    rw [List.replicate_succ, deepest_leftParen, ih]
    omega

/-- Balanced tokens leave open what was open before: enough parentheses behind them would show a
difference. -/
theorem Balanced.openAfter_eq (h : Balanced p) : openAfter n p = n := by
  have whole := h n []
  rw [List.append_nil, deepest] at whole
  have more := h n (List.replicate (n + nesting p + openAfter n p) .leftParen)
  rw [deepest_append, deepest_replicate_leftParen, deepest_replicate_leftParen] at more
  omega

theorem add_count_le_openAfter : n + p.count .leftParen ≤ openAfter n p + p.count .rightParen := by
  induction p generalizing n with
  | nil => exact Nat.le_refl _
  | cons t p ih =>
    by_cases left : t = .leftParen
    · have := ih (n := n + 1)
      rw [left, openAfter_leftParen, List.count_cons_self, List.count_cons_of_ne (by decide)]
      omega
    · by_cases right : t = .rightParen
      · have := ih (n := n - 1)
        rw [right, openAfter_rightParen, List.count_cons_self, List.count_cons_of_ne (by decide)]
        omega
      · rw [openAfter_cons_of_ne left right, List.count_cons_of_ne left,
          List.count_cons_of_ne right]
        exact ih

/-- If enough is open before, every parenthesis that closes counts. -/
theorem openAfter_add_count (enough : p.count .rightParen ≤ n) :
    openAfter n p + p.count .rightParen = n + p.count .leftParen := by
  induction p generalizing n with
  | nil => rfl
  | cons t p ih =>
    by_cases left : t = .leftParen
    · rw [left, List.count_cons_of_ne (by decide)] at enough
      have := ih (n := n + 1) (by omega)
      rw [left, openAfter_leftParen, List.count_cons_self, List.count_cons_of_ne (by decide)]
      omega
    · by_cases right : t = .rightParen
      · rw [right, List.count_cons_self] at enough
        have := ih (n := n - 1) (by omega)
        rw [right, openAfter_rightParen, List.count_cons_self, List.count_cons_of_ne (by decide)]
        omega
      · rw [List.count_cons_of_ne right] at enough
        rw [openAfter_cons_of_ne left right, List.count_cons_of_ne left,
          List.count_cons_of_ne right]
        exact ih enough

theorem Balanced.matched (h : Balanced p) : Matched p := by
  have settled : p.count .leftParen = p.count .rightParen := by
    have counted := openAfter_add_count (Nat.le_refl (p.count .rightParen))
    rw [h.openAfter_eq] at counted
    omega
  refine ⟨settled, ?_⟩
  rintro q ⟨r, rfl⟩
  -- what is open behind the prefix is closed by the rest
  have closed : openAfter (openAfter 0 q) r = 0 := by rw [← openAfter_append, h.openAfter_eq]
  have rest := add_count_le_openAfter (n := openAfter 0 q) (p := r)
  rw [closed] at rest
  rw [List.count_append, List.count_append] at settled
  omega

/-! ### Lists of balanced tokens -/

theorem Balanced.after (hp : Balanced p) (plain : t ≠ .leftParen ∧ t ≠ .rightParen) :
    Balanced (t :: p) :=
  hp.cons plain.1 plain.2

theorem balanced_singleton (plain : t ≠ .leftParen ∧ t ≠ .rightParen) : Balanced [t] :=
  balanced_nil.after plain

theorem balanced_of_items {α : Type} {J : List Token → List Token → α → Prop}
    {rest : List Token} {as : List α} (items : Items J rest p as)
    (each : ∀ {rest p a}, J rest p a → Balanced p) : Balanced p := by
  induction items with
  | last only => exact each only
  | more first _ ih => exact (each first).append (ih.after (by simp))

theorem balanced_of_numbered {α : Type} {J : Nat → List Token → α → Prop} {rest : List Token}
    {as : List α} (items : Numbered J rest n p as) (each : ∀ {n p a}, J n p a → Balanced p) :
    Balanced p := by
  induction items with
  | last only => exact each only
  | more first _ ih => exact (each first).append (ih.after (by simp))

theorem balanced_of_marked {keyword : String} {rest : List Token} {found : Bool}
    (marked : Marked keyword rest p found) : Balanced p := by
  cases marked with
  | present here => exact balanced_singleton (ne_paren_of_isKeyword here)
  | absent => exact balanced_nil

end Token

open Token

variable {ctx : Context} {p rest : List Token} {d : Descriptor}

/-! ### Clauses -/

theorem Condition.WhereOf.balanced {filter : Option Predicate}
    (h : Condition.WhereOf ctx rest p filter) : Balanced p := by
  cases h with
  | clause opens chain => exact chain.balanced.after (ne_paren_of_isKeyword opens)
  | absent => exact balanced_nil

theorem AliasOf.balanced {o : Option String} (h : AliasOf rest p o) : Balanced p := by
  cases h with
  | explicit as named =>
    exact (balanced_singleton (ne_paren_of_name? named)).after (ne_paren_of_isKeyword as)
  | bare named => exact balanced_singleton (ne_paren_of_name? (name?_of_bareAlias? named))
  | absent => exact balanced_nil

theorem TableOf.balanced {table : TableRef} (h : TableOf rest p table) : Balanced p := by
  cases h with
  | table named renamed => exact renamed.balanced.after (ne_paren_of_name? named)

theorem Select.ColumnOf.balanced {c : Select.Column} (h : Select.ColumnOf rest p c) :
    Balanced p := by
  cases h with
  | star => exact balanced_singleton (by simp)
  | renamed _ named as other =>
    exact ((balanced_singleton (ne_paren_of_name? other)).after (ne_paren_of_isKeyword as)).after
      (ne_paren_of_name? named)
  | plain _ named => exact balanced_singleton (ne_paren_of_name? named)

namespace Join

theorem Opens.balanced (h : Opens p) : Balanced p := by
  cases h with
  | join join => exact balanced_singleton (ne_paren_of_isKeyword join)
  | left left join =>
    exact (balanced_singleton (ne_paren_of_isKeyword join)).after (ne_paren_of_isKeyword left)
  | leftOuter left outer join =>
    exact ((balanced_singleton (ne_paren_of_isKeyword join)).after
      (ne_paren_of_isKeyword outer)).after (ne_paren_of_isKeyword left)

theorem EqualityOf.balanced {left right : String} (h : EqualityOf p left right) : Balanced p := by
  have bare : ∀ {t u : Token}, t.name? = some left → u.name? = some right →
      Balanced [t, .symbol "=", u] := fun first second =>
    ((balanced_singleton (ne_paren_of_name? second)).after (by simp)).after
      (ne_paren_of_name? first)
  cases h with
  | bare first second => exact bare first second
  | enclosed first second => exact (bare first second).enclosed

theorem JoinedOf.balanced {outer : TableRef} {stage : Lookup} (h : JoinedOf outer rest p stage) :
    Balanced p := by
  cases h with
  | on table on equality =>
    exact table.balanced.append (equality.balanced.after (ne_paren_of_isKeyword on))

theorem JoinsOf.balanced {outer : TableRef} {stages : List Lookup}
    (h : JoinsOf outer rest p stages) : Balanced p := by
  induction h with
  | nil => exact balanced_nil
  | cons opens first _ ih => exact opens.balanced.append (first.balanced.append ih)

end Join

namespace Ordering

theorem OrderByOf.balanced {elements : List OrderElement} (h : OrderByOf rest p elements) :
    Balanced p := by
  have each : ∀ {rest p e}, ElementOf rest p e → Balanced p := by
    intro rest p e h
    cases h with
    | descending named direction | ascending named direction =>
      exact (balanced_singleton (ne_paren_of_isKeyword direction)).after (ne_paren_of_name? named)
    | plain named => exact balanced_singleton (ne_paren_of_name? named)
  cases h with
  | clause order by_ items =>
    exact ((balanced_of_items items each).after (ne_paren_of_isKeyword by_)).after
      (ne_paren_of_isKeyword order)
  | absent => exact balanced_nil

theorem LimitOf.balanced {limit : Option Limit} (h : LimitOf ctx rest p limit) : Balanced p := by
  have count : ∀ {t n}, ctx.CountOf t n → Balanced [t] := fun given =>
    balanced_singleton (ne_paren_of_isValue given.1)
  cases h with
  | count limit given => exact (count given).after (ne_paren_of_isKeyword limit)
  | pair limit first second =>
    exact (((count second).after (by simp)).after (ne_paren_of_isValue first.1)).after
      (ne_paren_of_isKeyword limit)
  | offset limit first offset second =>
    exact (((count second).after (ne_paren_of_isKeyword offset)).after
      (ne_paren_of_isValue first.1)).after (ne_paren_of_isKeyword limit)
  | absent => exact balanced_nil

end Ordering

/-! ### Statements -/

theorem Delete.StatementOf.balanced (h : Delete.StatementOf ctx p d) : Balanced p := by
  cases h with
  | delete delete from_ named filtered =>
    exact ((filtered.balanced.after (ne_paren_of_name? named)).after
      (ne_paren_of_isKeyword from_)).after (ne_paren_of_isKeyword delete)

theorem Update.StatementOf.balanced (h : Update.StatementOf ctx p d) : Balanced p := by
  have each : ∀ {p e}, AssignmentOf ctx.params p e → Balanced p := by
    intro p e h
    cases h with
    | assignment named given =>
      exact ((balanced_singleton given.ne_paren).after (by simp)).after (ne_paren_of_name? named)
  cases h with
  | update update named set assigned filtered =>
    exact ((((balanced_of_items assigned each).append filtered.balanced).after
      (ne_paren_of_isKeyword set)).after (ne_paren_of_name? named)).after
      (ne_paren_of_isKeyword update)

theorem Insert.StatementOf.balanced (h : Insert.StatementOf ctx p d) : Balanced p := by
  have name : ∀ {p a}, NameAt p a → Balanced p := by
    rintro _ a ⟨t, rfl, named⟩
    exact balanced_singleton (ne_paren_of_name? named)
  have value : ∀ {p v}, ValueAt ctx.params p v → Balanced p := by
    rintro _ v ⟨t, rfl, given⟩
    exact balanced_singleton given.ne_paren
  cases h with
  | @insert k j t v w p q _ _ _ insert ignoring into named columns values row =>
    have keyword : v ≠ .leftParen ∧ v ≠ .rightParen := by
      rcases values with plural | single
      · exact ne_paren_of_isKeyword plural
      · exact ne_paren_of_isKeyword single
    have listed := (balanced_of_items columns name).enclosed
    have given := (balanced_of_items row value).enclosed.after keyword
    have lists := ((listed.append given).after (ne_paren_of_name? named)).after
      (ne_paren_of_isKeyword into)
    have whole := ((balanced_of_marked ignoring).append lists).after (ne_paren_of_isKeyword insert)
    simpa using whole

theorem Procedure.StatementOf.balanced (h : Procedure.StatementOf ctx p d) : Balanced p := by
  have argument : ∀ {n p e}, ArgumentOf ctx.params n p e → Balanced p := by
    intro n p e h
    cases h with
    | literal value | bound value => exact balanced_singleton (ne_paren_of_isValue value)
  have arguments : ∀ {rest p fields}, ArgumentsOf ctx rest p fields → Balanced p := by
    intro rest p fields h
    cases h with
    | nothing => exact balanced_nil
    | empty => exact balanced_nil.enclosed
    | listed items => exact (balanced_of_numbered items argument).enclosed
  have separator : ∀ {p}, Separator p → Balanced p := by
    intro p h
    cases h with
    | nothing => exact balanced_nil
    | semicolon => exact balanced_singleton (by simp)
  cases h with
  | call _ opens named passed =>
    exact ((arguments passed).after (ne_paren_of_name? named)).after (ne_paren_of_isKeyword opens)
  | block opens named passed first closes second =>
    have last := (separator first).append ((separator second).after (ne_paren_of_isKeyword closes))
    exact (((arguments passed).append last).after (ne_paren_of_name? named)).after
      (ne_paren_of_isKeyword opens)

theorem Select.StatementOf.balanced (h : Select.StatementOf ctx p d) : Balanced p := by
  have clauses_balanced : ∀ {p table joins filter orderBy limit},
      ClausesOf ctx p table joins filter orderBy limit → Balanced p := by
    intro p table joins filter orderBy limit h
    cases h with
    | clauses named joined filtered ordered limited =>
      exact named.balanced.append (joined.balanced.append (filtered.balanced.append
        (ordered.balanced.append limited.balanced)))
  cases h with
  | select select marked listed from_ clauses =>
    have columns := balanced_of_items listed ColumnOf.balanced
    have behind := (clauses_balanced clauses).after (ne_paren_of_isKeyword from_)
    exact ((balanced_of_marked marked).append (columns.append behind)).after
      (ne_paren_of_isKeyword select)

theorem Statement.Opening.FormOf.balanced {o : Statement.Opening} (h : o.FormOf ctx p d) :
    Balanced p := by
  cases o with
  | select => exact Select.StatementOf.balanced h
  | insert => exact Insert.StatementOf.balanced h
  | update => exact Update.StatementOf.balanced h
  | delete => exact Delete.StatementOf.balanced h
  | procedure => exact Procedure.StatementOf.balanced h

/-! ### Parentheses that do not match -/

def Condition.lastClause (ctx : Context) : Reader Predicate := do
  let p ← predicate ctx
  Reader.finish
  return p

theorem Condition.matched_of_lastClause {tokens left : List Token} {x : Predicate}
    (h : (lastClause ctx).run tokens = (.ok x, left)) : Matched tokens := by
  obtain ⟨p, rfl, reads⟩ := run_eq_ok_iff.mp h
  obtain ⟨q, s, x, rfl, read, last⟩ := reads_bind.mp reads
  obtain ⟨rfl, rfl, _⟩ := reads_finish_bind.mp last
  obtain ⟨_, _, chain⟩ := reads_predicate.mp read
  simpa using chain.balanced.matched

/-- Where every placeholder is bound to a value, the last clause fails in its syntax only. -/
theorem Condition.raises_lastClause {tokens : List Token}
    (bound : ∀ word name, .word word ∈ tokens → Literal.placeholder? word = some name →
      ∃ v, ctx.params.get? name = some v ∧ v.isPlaceholder = false) :
    Raises tokens CompileError.OfSyntax (lastClause ctx) := by
  refine .bind (raises_predicate.mono fun e clause => ?_) fun _ =>
    .bind (.finish fun _ h => h) fun _ => .pure
  cases clause with
  | syntactic h => exact h
  | unbound stands placeholder missing =>
    obtain ⟨v, found, plain⟩ := bound _ _ stands placeholder
    rcases missing with missing | ⟨other, missing⟩
    · rw [missing] at found
      cases found
    · rw [missing] at found
      cases found
      cases plain

/-- Nothing compiles whose parentheses do not match. A WHERE clause with such parentheses fails with
an unexpected token or a malformed clause, if every placeholder in it is bound to a value. -/
theorem unmatched_parentheses_fail :
    (∀ settings text params d, compile settings text params = .ok d →
      ∃ tokens, Token.tokenize (Statement.normalize text) = .ok tokens ∧ Matched tokens) ∧
    ∀ (ctx : Context) (tokens : List Token), ¬ Matched tokens →
      (∀ word name, .word word ∈ tokens → Literal.placeholder? word = some name →
        ∃ v, ctx.params.get? name = some v ∧ v.isPlaceholder = false) →
      ∃ e, ((Condition.lastClause ctx).run tokens).1 = .error e ∧
        ((∃ token, e = .unexpectedToken token) ∨ ∃ fault, e = .malformedClause fault) := by
  refine ⟨fun settings text params d compiles => ?_, fun ctx tokens unmatched bound => ?_⟩
  · obtain ⟨tokens, o, tokenized, form⟩ := compile_eq_ok_iff.mp compiles
    exact ⟨tokens, tokenized, form.balanced.matched⟩
  · rcases outcome : (Condition.lastClause ctx).run tokens with ⟨e | x, left⟩
    · have syntactic : e.OfSyntax :=
        Condition.raises_lastClause bound tokens List.suffix_rfl e (by rw [outcome])
      refine ⟨e, rfl, ?_⟩
      cases syntactic with
      | malformed fault => exact .inr ⟨fault, rfl⟩
      | unexpected token => exact .inl ⟨token, rfl⟩
    · exact absurd (Condition.matched_of_lastClause outcome) unmatched

/-- A group that is closed compiles, and one that is left open fails. -/
theorem unmatched_parentheses_fail_open_group :
    (∃ tokens, Token.tokenize (Statement.normalize "DELETE FROM t WHERE (a = 1)") = .ok tokens ∧
      Matched tokens) ∧
    ∃ e, ((Condition.lastClause ⟨{}, .ofList [("x", .int 1)]⟩).run
        [.leftParen, .word "a", .symbol "=", .word ":x"]).1 = .error e ∧
      ((∃ token, e = .unexpectedToken token) ∨ ∃ fault, e = .malformedClause fault) := by
  have compiles : compile {} "DELETE FROM t WHERE (a = 1)" ∅ =
      .ok { kind := .delete, table := "t", filter := some (.comparison "a" .eq (.int 1)) } := by
    decide +kernel
  refine ⟨unmatched_parentheses_fail.1 _ _ _ _ compiles, unmatched_parentheses_fail.2 _ _ ?_ ?_⟩
  · intro matched
    exact absurd matched.settled (by decide)
  · intro word name stands placeholder
    have named : word = ":x" ∨ word = "a" := by
      simp only [List.mem_cons, List.not_mem_nil, reduceCtorEq, Token.word.injEq, or_false,
        false_or] at stands
      exact stands.symm
    rcases named with rfl | rfl
    · obtain rfl : "x" = name := Option.some.inj placeholder
      exact ⟨.int 1, by decide, rfl⟩
    · cases placeholder

end SqlBridge
