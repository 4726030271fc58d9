import Mathlib.Data.List.NodupEquivFin
import Mathlib.Tactic.IntervalCases
import SqlBridge.Proofs.Literal
import SqlBridge.Proofs.Statement.Grammar

/-!
# Calls and their arguments

A placeholder is passed under its own name and a literal under the name of its position, and both
kinds of names are in one map. A placeholder may be called like the position of a literal. Then the
name is passed twice, which is refused; otherwise the arguments are the fields, in order.
-/

namespace SqlBridge

open Reader

namespace Procedure

/-- The tokens of a call of `name` with these arguments, in each of its forms. -/
inductive CallOf (name : String) (args : List Token) : List Token → Prop where
  | call {k t : Token} {keyword : String} (called : keyword ∈ ["CALL", "EXEC", "EXECUTE"])
      (opens : k.isKeyword keyword = true) (named : t.name? = some name) :
      CallOf name args (k :: t :: .leftParen :: (args.intersperse .comma ++ [.rightParen]))
  | block {k t e : Token} {v w : List Token} (opens : k.isKeyword "BEGIN" = true)
      (named : t.name? = some name) (first : Separator v) (closes : e.isKeyword "END" = true)
      (second : Separator w) :
      CallOf name args
        (k :: t :: .leftParen :: (args.intersperse .comma ++ .rightParen :: (v ++ e :: w)))

/-- The name of the argument at a position. -/
def positionName (position : Nat) : String :=
  "param" ++ position.repr

/-- Arguments with their names and values, the first of them at position `n`. -/
def Passed (params : Params) (n : Nat) (args : List Token) (es : List (String × Value)) : Prop :=
  List.Forall₂ (fun x e => ArgumentOf params x.2 [x.1] e) (args.zipIdx n) es

variable {ctx : Context} {params : Params} {args : List Token} {es : List (String × Value)}
  {t : Token} {n : Nat} {name : String} {m : OrderedMap Value} {rest : List Token}

theorem positionName_injective {i j : Nat} (same : positionName i = positionName j) : i = j := by
  rw [positionName, positionName, ← String.toList_inj, String.toList_append,
    String.toList_append] at same
  exact Literal.eq_of_repr_eq (String.toList_inj.mp (List.append_cancel_left same))

/-! ### Names and values -/

theorem passed_cons_iff {e : String × Value} :
    Passed params n (t :: args) (e :: es) ↔
      ArgumentOf params n [t] e ∧ Passed params (n + 1) args es := by
  rw [Passed, List.zipIdx_cons, List.forall₂_cons]
  rfl

/-- Arguments that all have values are passed under some names. -/
theorem exists_passed (bound : ∀ t ∈ args, ∃ v, params.ValueOf t v) :
    ∃ es, Passed params n args es := by
  induction args generalizing n with
  | nil => exact ⟨[], .nil⟩
  | cons t args ih =>
    obtain ⟨⟨v, given⟩, others⟩ := List.forall_mem_cons.mp bound
    obtain ⟨es, passed⟩ := ih others (n := n + 1)
    cases given with
    | literal value plain => exact ⟨_, passed_cons_iff.mpr ⟨.literal value plain, passed⟩⟩
    | bound value placeholder found plain =>
      exact ⟨_, passed_cons_iff.mpr ⟨.bound value placeholder found plain, passed⟩⟩

theorem Passed.of_getElem? {i : Nat} {e : String × Value} (h : Passed params n args es)
    (there : es[i]? = some e) : ∃ t, args[i]? = some t ∧ ArgumentOf params (n + i) [t] e := by
  induction args generalizing n i es with
  | nil =>
    cases h
    cases there
  | cons t args ih =>
    rcases es with _ | ⟨first, es⟩
    · cases there
    obtain ⟨here, others⟩ := passed_cons_iff.mp h
    cases i with
    | zero =>
      cases there
      exact ⟨t, rfl, here⟩
    | succ i =>
      obtain ⟨u, listed, passed⟩ := ih others there
      exact ⟨u, listed, by rwa [Nat.add_right_comm] at passed⟩

theorem Passed.length_eq (h : Passed params n args es) : es.length = args.length := by
  rw [← List.Forall₂.length_eq h, List.length_zipIdx]

theorem Passed.getElem? {i : Nat} (h : Passed params n args es) (listed : args[i]? = some t) :
    ∃ e, es[i]? = some e ∧ ArgumentOf params (n + i) [t] e := by
  have inside : i < es.length := h.length_eq ▸ (List.getElem?_eq_some_iff.mp listed).1
  obtain ⟨u, same, passed⟩ := h.of_getElem? (List.getElem?_eq_getElem inside)
  obtain rfl := Option.some.inj (listed.symm.trans same)
  exact ⟨_, List.getElem?_eq_getElem inside, passed⟩

/-! ### Names that are passed twice -/

/-- The name of a literal, by its position, that is also the name of a placeholder. -/
def Clashes (args : List Token) (name : String) : Prop :=
  (∃ i t, args[i]? = some t ∧ t.literal.isPlaceholder = false ∧ name = positionName (i + 1)) ∧
    ∃ u ∈ args, u.literal = .placeholder name

/-- No placeholder stands among the arguments twice. -/
def DistinctPlaceholders (args : List Token) : Prop :=
  args.Pairwise fun t u => t.literal.isPlaceholder = true → t.literal ≠ u.literal

/-- An argument has the name of its position or its own. -/
theorem ArgumentOf.name_eq {e : String × Value} (h : ArgumentOf params n [t] e) :
    (t.literal.isPlaceholder = false ∧ e.1 = positionName n) ∨ t.literal = .placeholder e.1 := by
  cases h with
  | literal _ plain => exact .inl ⟨plain, rfl⟩
  | bound _ placeholder => exact .inr placeholder

/-- Positions have different names and so have the placeholders, so only a literal and a placeholder
can be passed under one name. -/
theorem Passed.clashes_of_duplicate (h : Passed params 1 args es)
    (distinct : DistinctPlaceholders args) (twice : List.Duplicate name (es.map Prod.fst)) :
    Clashes args name := by
  obtain ⟨⟨i, hi⟩, ⟨j, hj⟩, lt, first, second⟩ := List.duplicate_iff_exists_distinct_get.mp twice
  rw [List.length_map] at hi hj
  rw [List.get_eq_getElem, List.getElem_map] at first second
  obtain ⟨t, listed, passed⟩ := h.of_getElem? (List.getElem?_eq_getElem hi)
  obtain ⟨u, later, passed'⟩ := h.of_getElem? (List.getElem?_eq_getElem hj)
  rw [Nat.add_comm] at passed passed'
  have earlier : i < j := lt
  rcases passed.name_eq with ⟨plain, same⟩ | same
  · rcases passed'.name_eq with ⟨_, same'⟩ | same'
    · have equal := positionName_injective (same.symm.trans (first.symm.trans (second.trans same')))
      omega
    · rw [← second] at same'
      exact ⟨⟨i, t, listed, plain, first.trans same⟩, u, List.mem_of_getElem? later, same'⟩
  · rcases passed'.name_eq with ⟨plain', same'⟩ | same'
    · rw [← first] at same
      exact ⟨⟨j, u, later, plain', second.trans same'⟩, t, List.mem_of_getElem? listed, same⟩
    · obtain ⟨hi', rfl⟩ := List.getElem?_eq_some_iff.mp listed
      obtain ⟨hj', rfl⟩ := List.getElem?_eq_some_iff.mp later
      refine absurd ?_ (List.pairwise_iff_getElem.mp distinct i j hi' hj' earlier ?_)
      · rw [same, same', ← first, ← second]
      · rw [same]
        rfl

/-- The literal and the placeholder are two arguments under one name. -/
theorem Passed.not_nodup_of_clashes (h : Passed params 1 args es) (clash : Clashes args name) :
    ¬ (es.map Prod.fst).Nodup := by
  obtain ⟨⟨i, t, listed, plain, rfl⟩, u, there, placeholder⟩ := clash
  obtain ⟨j, later⟩ := List.mem_iff_getElem?.mp there
  obtain ⟨e, here, passed⟩ := h.getElem? listed
  obtain ⟨e', here', passed'⟩ := h.getElem? later
  have name : e.1 = positionName (i + 1) := by
    rcases passed.name_eq with ⟨_, same⟩ | same
    · rw [same, Nat.add_comm]
    · rw [same] at plain
      cases plain
  have name' : e'.1 = positionName (i + 1) := by
    rcases passed'.name_eq with ⟨plain', _⟩ | same
    · rw [placeholder] at plain'
      cases plain'
    · exact Value.placeholder.inj (same.symm.trans placeholder)
  intro nodup
  have entries : (es.map Prod.fst)[i]? = (es.map Prod.fst)[j]? := by
    rw [List.getElem?_map, List.getElem?_map, here, here', Option.map_some, Option.map_some, name,
      name']
  have inside : i < (es.map Prod.fst).length := by
    rw [List.length_map]
    exact (List.getElem?_eq_some_iff.mp here).1
  obtain rfl := (List.getElem?_inj inside nodup).mp entries
  obtain rfl := Option.some.inj (listed.symm.trans later)
  rw [placeholder] at plain
  cases plain

/-! ### Reading the arguments -/

/-- An argument is added under its name, unless the name is taken. -/
theorem run_argument {e : String × Value} {ts : List Token}
    (passed : ArgumentOf ctx.params (m.entries.length + 1) [t] e) :
    (argument ctx m).run (t :: ts) =
      (if m.contains e.1 = true then .error (.malformedClause (.repeatedArgument e.1))
        else .ok (m.insert e.1 e.2), ts) := by
  obtain ⟨value, found⟩ := argumentOf_iff.mpr passed
  have taken : Reader.value.run (t :: ts) = (.ok t, ts) := by
    rw [Reader.value, run_bind, run_next, continueWith_ok, List.head?_cons, List.tail_cons]
    dsimp only
    rw [if_pos value, run_pure]
  rw [argument, run_bind, taken, continueWith_ok, run_bind, run_ofExcept, found, continueWith_ok]
  dsimp only
  by_cases present : m.contains e.1 = true
  · rw [if_pos present, if_pos present]
    rfl
  · rw [if_neg present, if_neg present]
    rfl

/-- What follows the first argument. -/
theorem intersperse_cons (t : Token) (args : List Token) :
    ∃ more, ∀ rest, (t :: args).intersperse .comma ++ rest = t :: (more ++ rest) := by
  cases args with
  | nil => exact ⟨[], fun _ => rfl⟩
  | cons u args => exact ⟨.comma :: (u :: args).intersperse .comma, fun _ => rfl⟩

theorem duplicate_of_present {e : String × Value} (present : m.contains e.1 = true) :
    List.Duplicate e.1 (m.keys ++ (e :: es).map Prod.fst) := by
  have before : [e.1].Sublist m.keys :=
    List.singleton_sublist.mpr (OrderedMap.contains_eq_true_iff.mp present)
  have here : [e.1].Sublist ((e :: es).map Prod.fst) :=
    List.singleton_sublist.mpr List.mem_cons_self
  exact List.duplicate_iff_sublist.mpr (before.append here)

/-- A first argument under a name that is taken fails, whatever follows it. -/
theorem run_separated_of_present {e : String × Value}
    (passed : ArgumentOf ctx.params (m.entries.length + 1) [t] e)
    (present : m.contains e.1 = true) :
    ∃ left, (separated (argument ctx) m).run ((t :: args).intersperse .comma ++ rest) =
      (.error (.malformedClause (.repeatedArgument e.1)), left) := by
  obtain ⟨more, split⟩ := intersperse_cons t args
  refine ⟨more ++ rest, ?_⟩
  rw [split, separated, run_bind, run_argument passed, if_pos present, continueWith_error]

theorem keys_insert_of_new {e : String × Value} (new : ¬ m.contains e.1 = true) :
    (m.insert e.1 e.2).keys ++ es.map Prod.fst = m.keys ++ (e :: es).map Prod.fst := by
  rw [OrderedMap.keys_insert, if_neg new, List.append_assoc, List.map_cons, List.singleton_append]

/-- If the names of arguments repeat one another or the names that were passed before, then the
arguments fail with a name that is repeated. -/
theorem run_separated_of_repeated (rest : List Token)
    (passed : Passed ctx.params (m.entries.length + 1) (t :: args) es)
    (repeated : ¬ (m.keys ++ es.map Prod.fst).Nodup) :
    ∃ name left, List.Duplicate name (m.keys ++ es.map Prod.fst) ∧
      (separated (argument ctx) m).run ((t :: args).intersperse .comma ++ rest) =
        (.error (.malformedClause (.repeatedArgument name)), left) := by
  induction es generalizing t args m with
  | nil => cases passed
  | cons e es ih =>
    obtain ⟨here, others⟩ := passed_cons_iff.mp passed
    by_cases present : m.contains e.1 = true
    · obtain ⟨left, failed⟩ := run_separated_of_present here present
      exact ⟨e.1, left, duplicate_of_present present, failed⟩
    · have length : (m.insert e.1 e.2).entries.length = m.entries.length + 1 := by
        rw [OrderedMap.entries_insert_of_new (Bool.eq_false_iff.mpr present), List.length_append,
          List.length_singleton]
      rw [← length] at others
      rw [← keys_insert_of_new present] at repeated ⊢
      rcases args with _ | ⟨u, args⟩
      · -- the names of a map are different, so it is not this name that is repeated
        cases others
        rw [List.map_nil, List.append_nil] at repeated
        exact absurd (m.insert e.1 e.2).nodup repeated
      · obtain ⟨name, left, twice, failed⟩ := ih others repeated
        refine ⟨name, left, twice, ?_⟩
        rw [List.intersperse_cons_cons, List.cons_append, List.cons_append, separated, run_bind,
          run_argument here, if_neg present, continueWith_ok, run_loop_cons]
        exact failed

theorem Passed.numbered (passed : Passed params (n + 1) (t :: args) es)
    (ended : rest.head? ≠ some .comma) : Numbered (fun n => ArgumentOf params (n + 1)) rest n
      ((t :: args).intersperse .comma) es := by
  induction args generalizing t n es with
  | nil =>
    obtain ⟨e, es, rfl⟩ := List.exists_cons_of_length_eq_add_one passed.length_eq
    obtain ⟨here, others⟩ := passed_cons_iff.mp passed
    cases others
    exact .last here ended
  | cons u args ih =>
    obtain ⟨e, es, rfl⟩ := List.exists_cons_of_length_eq_add_one passed.length_eq
    obtain ⟨here, others⟩ := passed_cons_iff.mp passed
    exact .more (J := fun n => ArgumentOf params (n + 1)) here (ih others)

/-- Arguments under different names are the fields. -/
theorem argumentsOf_of_passed {fields : OrderedMap Value}
    (passed : Passed ctx.params 1 args fields.entries) :
    ArgumentsOf ctx rest (.leftParen :: (args.intersperse .comma ++ [.rightParen])) fields := by
  rcases args with _ | ⟨t, args⟩
  · have none : fields.entries = [] := List.length_eq_zero_iff.mp passed.length_eq
    obtain rfl : fields = ∅ := OrderedMap.eq_empty_of_isEmpty (List.isEmpty_iff.mpr none)
    exact .empty
  · exact .listed (passed.numbered (by simp))

/-- Arguments under repeated names fail with one of the names. -/
theorem run_arguments_of_repeated (rest : List Token) (passed : Passed ctx.params 1 args es)
    (repeated : ¬ (es.map Prod.fst).Nodup) :
    ∃ name left, List.Duplicate name (es.map Prod.fst) ∧
      (arguments ctx).run (.leftParen :: (args.intersperse .comma ++ rest)) =
        (.error (.malformedClause (.repeatedArgument name)), left) := by
  rcases args with _ | ⟨t, args⟩
  · cases passed
    exact absurd List.nodup_nil repeated
  obtain ⟨name, left, twice, failed⟩ :=
    run_separated_of_repeated (m := ∅) rest passed repeated
  refine ⟨name, left, twice, ?_⟩
  obtain ⟨more, split⟩ := intersperse_cons t args
  have value : t ≠ .rightParen := by
    obtain ⟨e, es, rfl⟩ := List.exists_cons_of_length_eq_add_one passed.length_eq
    exact (Token.ne_paren_of_isValue (argumentOf_iff.mpr (passed_cons_iff.mp passed).1).1).2
  rw [arguments, run_bind, run_eat, List.head?_cons, if_pos rfl, continueWith_ok, if_pos rfl,
    List.tail_cons, run_bind, run_eat, split, List.head?_cons, if_neg (by simpa using value),
    continueWith_ok, if_neg Bool.false_ne_true, ← split, run_bind, failed, continueWith_error]

/-- A call fails as its arguments do. -/
theorem run_statement_of_error {k : Token} {keyword : String} {q left : List Token}
    {e : CompileError} (listed : keyword ∈ keywords) (opens : k.isKeyword keyword = true)
    (named : t.name? = some name) (failed : (arguments ctx).run q = (.error e, left)) :
    (statement ctx).run (k :: t :: q) = (.error e, left) := by
  have read : Reader.name.run (t :: q) = (.ok name, q) := by
    rw [Reader.name, run_bind, run_next, continueWith_ok, List.head?_cons, List.tail_cons]
    dsimp only
    rw [named]
    rfl
  rw [statement, run_bind, run_atKeyword, continueWith_ok, run_bind,
    run_startKeyword ⟨keyword, listed, opens⟩, continueWith_ok, run_bind, read, continueWith_ok,
    run_bind, failed, continueWith_error]

theorem CallOf.exists_split {tokens : List Token} (h : CallOf name args tokens) :
    ∃ k t keyword q, tokens = k :: t :: .leftParen :: (args.intersperse .comma ++ q) ∧
      keyword ∈ keywords ∧ k.isKeyword keyword = true ∧ t.name? = some name := by
  cases h with
  | call called opens named =>
    exact ⟨_, _, _, _, rfl, mem_keywords_iff.mpr (.inl called), opens, named⟩
  | block opens named => exact ⟨_, _, _, _, rfl, mem_keywords_iff.mpr (.inr rfl), opens, named⟩

/-- A call whose arguments have different names is a statement with these fields. -/
theorem CallOf.statementOf {tokens : List Token} {fields : OrderedMap Value}
    (h : CallOf name args tokens) (passed : Passed ctx.params 1 args fields.entries) :
    StatementOf ctx tokens { kind := .procedure, fields, procedureName := some name } := by
  cases h with
  | call called opens named => exact .call called opens named (argumentsOf_of_passed passed)
  | @block k t e v w opens named first closes second =>
    have statement : StatementOf ctx (k :: t :: (.leftParen :: (args.intersperse .comma ++
        [.rightParen]) ++ (v ++ e :: w))) _ :=
      .block opens named (argumentsOf_of_passed passed) first closes second
    rwa [List.cons_append, List.append_assoc, List.singleton_append] at statement

/-- A call whose arguments repeat a name does not compile. -/
theorem CallOf.ofTokens_eq_error {tokens : List Token} (h : CallOf name args tokens)
    (ctx : Context) (passed : Passed ctx.params 1 args es) (repeated : ¬ (es.map Prod.fst).Nodup) :
    ∃ other, List.Duplicate other (es.map Prod.fst) ∧
      Statement.ofTokens ctx tokens = .error (.malformedClause (.repeatedArgument other)) := by
  obtain ⟨k, t, keyword, q, rfl, listed, opens, named⟩ := h.exists_split
  obtain ⟨other, left, twice, failed⟩ := run_arguments_of_repeated q passed repeated
  refine ⟨other, twice, ?_⟩
  cases k with
  | word text =>
    have found : Statement.opening? text = some .procedure :=
      Statement.opening?_eq_some_iff_isKeyword.mpr ⟨keyword, listed, opens⟩
    rw [Statement.ofTokens_of_opening? found, Statement.readerOf,
      run_statement_of_error listed opens named failed]
  | _ => cases opens

end Procedure

/-- A call in any of its forms, of which each argument is a literal or a bound placeholder and no
placeholder stands twice. Its arguments are the fields in order, each under the name of its position
or its own, unless a placeholder is called like the position of a literal: then such a name is
refused because it is passed twice. -/
theorem compile_call {settings : Settings} {text name : String} {params : Params}
    {tokens args : List Token}
    (tokenized : Token.tokenize (Statement.normalize text) = .ok tokens)
    (call : Procedure.CallOf name args tokens) (bound : ∀ t ∈ args, ∃ v, params.ValueOf t v)
    (distinct : Procedure.DistinctPlaceholders args) :
    ((∀ other, ¬ Procedure.Clashes args other) →
      ∃ fields : OrderedMap Value, Procedure.Passed params 1 args fields.entries ∧
        compile settings text params =
          .ok { kind := .procedure, fields, procedureName := some name }) ∧
    ((∃ other, Procedure.Clashes args other) →
      ∃ other, Procedure.Clashes args other ∧
        compile settings text params = .error (.malformedClause (.repeatedArgument other))) := by
  obtain ⟨es, passed⟩ := Procedure.exists_passed bound (n := 1)
  constructor
  · intro apart
    have nodup : (es.map Prod.fst).Nodup := by
      by_contra repeated
      obtain ⟨other, twice⟩ := List.exists_duplicate_iff_not_nodup.mpr repeated
      exact apart other (passed.clashes_of_duplicate distinct twice)
    have form : Procedure.StatementOf ⟨settings, params⟩ tokens
        { kind := .procedure, fields := ⟨es, nodup⟩, procedureName := some name } :=
      call.statementOf passed
    exact ⟨⟨es, nodup⟩, passed, compile_eq_ok_iff.mpr ⟨tokens, .procedure, tokenized, form⟩⟩
  · rintro ⟨other, clash⟩
    obtain ⟨other, twice, failed⟩ := call.ofTokens_eq_error ⟨settings, params⟩ passed
      (passed.not_nodup_of_clashes clash)
    refine ⟨other, passed.clashes_of_duplicate distinct twice, ?_⟩
    rw [compile, tokenized]
    exact failed

/-- A placeholder may be called like another position that is a placeholder too. -/
theorem compile_call_of_placeholder_like_position :
    ∃ fields : OrderedMap Value,
      Procedure.Passed (.ofList [("param3", .int 1), ("id", .null)]) 1
        [.word ":param3", .quoted "x", .word ":id"] fields.entries ∧
      compile {} "BEGIN sync(:param3, 'x', :id); END"
          (.ofList [("param3", .int 1), ("id", .null)]) =
        .ok { kind := .procedure, fields, procedureName := some "sync" } := by
  have tokenized : Token.tokenize (Statement.normalize "BEGIN sync(:param3, 'x', :id); END") =
      .ok [.word "BEGIN", .word "sync", .leftParen, .word ":param3", .comma, .quoted "x", .comma,
        .word ":id", .rightParen, .semicolon, .word "END"] := by
    decide +kernel
  have call : Procedure.CallOf "sync" [.word ":param3", .quoted "x", .word ":id"]
      [.word "BEGIN", .word "sync", .leftParen, .word ":param3", .comma, .quoted "x", .comma,
        .word ":id", .rightParen, .semicolon, .word "END"] :=
    .block (by decide) (by decide) .semicolon (by decide) .nothing
  have bound : ∀ t ∈ [Token.word ":param3", .quoted "x", .word ":id"],
      ∃ v, Params.ValueOf (.ofList [("param3", .int 1), ("id", .null)]) t v := by
    simp only [List.forall_mem_cons, Params.valueOf_iff]
    refine ⟨⟨.int 1, by decide⟩, ⟨.str "x", by decide⟩, ⟨.null, by decide⟩, ?_⟩
    exact fun t none => absurd none List.not_mem_nil
  have distinct : Procedure.DistinctPlaceholders [.word ":param3", .quoted "x", .word ":id"] := by
    rw [Procedure.DistinctPlaceholders]
    decide
  refine (compile_call tokenized call bound distinct).1 ?_
  rintro other ⟨⟨i, t, listed, plain, rfl⟩, u, there, same⟩
  have inside : i < 3 := (List.getElem?_eq_some_iff.mp listed).1
  simp only [List.mem_cons, List.not_mem_nil, or_false] at there
  interval_cases i
  · cases listed
    exact absurd plain (by decide)
  · rcases there with rfl | rfl | rfl <;> exact absurd same (by decide)
  · cases listed
    exact absurd plain (by decide)

/-- The second argument is a literal, so its name is that of the placeholder before it. -/
theorem not_forall_compile_call :
    ¬ ∀ (settings : Settings) (text name : String) (params : Params) (tokens args : List Token),
      Token.tokenize (Statement.normalize text) = .ok tokens → Procedure.CallOf name args tokens →
      (∀ t ∈ args, ∃ v, params.ValueOf t v) → Procedure.DistinctPlaceholders args →
      ∃ fields : OrderedMap Value, Procedure.Passed params 1 args fields.entries ∧
        compile settings text params =
          .ok { kind := .procedure, fields, procedureName := some name } := by
  intro all
  have bound : ∀ t ∈ [Token.word ":param2", .word "5"],
      ∃ v, Params.ValueOf (.ofList [("param2", .int 1)]) t v := by
    simp only [List.forall_mem_cons, Params.valueOf_iff]
    refine ⟨⟨.int 1, by decide⟩, ⟨.int 5, by decide⟩, ?_⟩
    exact fun t none => absurd none List.not_mem_nil
  have distinct : Procedure.DistinctPlaceholders [.word ":param2", .word "5"] := by
    rw [Procedure.DistinctPlaceholders]
    decide
  have called : "CALL" ∈ ["CALL", "EXEC", "EXECUTE"] := by decide
  obtain ⟨fields, _, compiled⟩ := all {} "CALL p(:param2, 5)" "p" (.ofList [("param2", .int 1)])
    [.word "CALL", .word "p", .leftParen, .word ":param2", .comma, .word "5", .rightParen]
    [.word ":param2", .word "5"] (by decide +kernel)
    (.call called (by decide) (by decide)) bound distinct
  have refused : compile {} "CALL p(:param2, 5)" (.ofList [("param2", .int 1)]) =
      .error (.malformedClause (.repeatedArgument "param2")) := by
    decide +kernel
  rw [refused] at compiled
  cases compiled

end SqlBridge
