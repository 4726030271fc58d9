import SqlBridge.CommandLine.Run
import SqlBridge.Proofs.Descriptor.WellFormed
import SqlBridge.Proofs.Sql.Correspondence

/-!
# Parameters in comments

SQL is printed with its parameters behind it, each in a comment of its own. A comment ends with its
line, and a string is displayed as it is. So what stands behind the statement is commented out
exactly if no string among the parameters has a line, apart from its first one, that does not look
like such a comment itself.
-/

namespace SqlBridge.CommandLine

def commentMark : List Char :=
  "-- $".toList

/-- Every line but the first starts like the comment of a parameter. -/
def CommentedOut (cs : List Char) : Prop :=
  ∀ line ∈ (cs.splitOn '\n').tail, commentMark <+: line

instance : DecidablePred CommentedOut := fun cs =>
  inferInstanceAs (Decidable (∀ line ∈ (cs.splitOn '\n').tail, commentMark <+: line))

variable {cs ds mark : List Char} {c : Char}

/-! ### Lines -/

/-- The lines of a text, of which there is one at least. -/
theorem exists_splitOn_eq_cons (cs : List Char) :
    ∃ first others, cs.splitOn '\n' = first :: others :=
  List.exists_cons_of_ne_nil (List.splitOn_ne_nil '\n' cs)

theorem splitOn_newline_cons : ('\n' :: cs).splitOn '\n' = [] :: cs.splitOn '\n' := by
  rw [List.splitOn_eq_splitOnP, List.splitOn_eq_splitOnP, List.splitOnP_cons_eq_if_modifyHead]
  simp

theorem splitOn_cons_of_ne {first : List Char} {others : List (List Char)} (apart : c ≠ '\n')
    (lines : cs.splitOn '\n' = first :: others) :
    (c :: cs).splitOn '\n' = (c :: first) :: others := by
  rw [List.splitOn_eq_splitOnP, List.splitOnP_cons_eq_if_modifyHead, ← List.splitOn_eq_splitOnP,
    lines]
  simp [apart]

/-- What stands on one line starts the text if it starts the first line. -/
theorem prefix_first_iff {first : List Char} {others : List (List Char)} (plain : '\n' ∉ mark)
    (lines : cs.splitOn '\n' = first :: others) : mark <+: first ↔ mark <+: cs := by
  induction cs generalizing mark first others with
  | nil =>
    rw [List.splitOn_nil, List.cons.injEq] at lines
    rw [← lines.1]
  | cons c cs ih =>
    obtain ⟨before, behind, rest⟩ := exists_splitOn_eq_cons cs
    rcases mark with _ | ⟨m, mark⟩
    · simp
    have plain' : '\n' ∉ mark := fun listed => plain (List.mem_cons_of_mem _ listed)
    by_cases newline : c = '\n'
    · subst newline
      have apart : m ≠ '\n' := fun same => plain (same ▸ List.mem_cons_self)
      rw [splitOn_newline_cons, List.cons.injEq] at lines
      rw [← lines.1, List.cons_prefix_cons]
      simp [apart]
    · rw [splitOn_cons_of_ne newline rest, List.cons.injEq] at lines
      rw [← lines.1, List.cons_prefix_cons, List.cons_prefix_cons, ih plain' rest]

/-! ### What is commented out -/

theorem commentedOut_cons_of_ne (apart : c ≠ '\n') : CommentedOut (c :: cs) ↔ CommentedOut cs := by
  obtain ⟨first, others, lines⟩ := exists_splitOn_eq_cons cs
  rw [CommentedOut, CommentedOut, splitOn_cons_of_ne apart lines, lines]
  rfl

theorem commentedOut_newline_cons :
    CommentedOut ('\n' :: cs) ↔ commentMark <+: cs ∧ CommentedOut cs := by
  obtain ⟨first, others, lines⟩ := exists_splitOn_eq_cons cs
  have started : commentMark <+: first ↔ commentMark <+: cs := prefix_first_iff (by decide) lines
  rw [CommentedOut, CommentedOut, splitOn_newline_cons, lines, List.tail_cons, List.tail_cons,
    List.forall_mem_cons, started]

/-- Text on one line does not matter in front of another. -/
theorem commentedOut_append_of_newline_notMem (plain : '\n' ∉ cs) :
    CommentedOut (cs ++ ds) ↔ CommentedOut ds := by
  induction cs with
  | nil => rfl
  | cons c cs ih =>
    have apart : c ≠ '\n' := fun same => plain (same ▸ List.mem_cons_self)
    have others : '\n' ∉ cs := fun listed => plain (List.mem_cons_of_mem _ listed)
    rw [List.cons_append, commentedOut_cons_of_ne apart, ih others]

theorem commentedOut_of_newline_notMem (plain : '\n' ∉ cs) : CommentedOut cs := by
  rw [← List.append_nil cs, commentedOut_append_of_newline_notMem plain]
  simp [CommentedOut]

/-- What stands behind a newline is commented out by itself. -/
theorem commentedOut_append_newline :
    CommentedOut (cs ++ '\n' :: ds) ↔ CommentedOut cs ∧ CommentedOut ('\n' :: ds) := by
  obtain ⟨first, others, lines⟩ := exists_splitOn_eq_cons cs
  rw [CommentedOut, CommentedOut, CommentedOut, List.splitOn_append_cons_self, splitOn_newline_cons,
    lines, List.cons_append, List.tail_cons, List.tail_cons, List.tail_cons, List.forall_mem_append]

/-! ### Displayed values -/

/-- An apostrophe is no part of the mark, so doubling the apostrophes of a text makes no line of it
a comment. -/
theorem prefix_doubled_iff (apart : '\'' ∉ mark) :
    mark <+: Text.doubled '\'' cs ++ ['\''] ↔ mark <+: cs := by
  induction cs generalizing mark with
  | nil =>
    rcases mark with _ | ⟨m, mark⟩
    · simp
    · have other : m ≠ '\'' := fun same => apart (same ▸ List.mem_cons_self)
      simp [Text.doubled, List.cons_prefix_cons, other]
  | cons c cs ih =>
    rcases mark with _ | ⟨m, mark⟩
    · simp
    have other : m ≠ '\'' := fun same => apart (same ▸ List.mem_cons_self)
    have apart' : '\'' ∉ mark := fun listed => apart (List.mem_cons_of_mem _ listed)
    by_cases quote : c = '\''
    · subst quote
      rw [Text.doubled_cons_quote, List.cons_append, List.cons_prefix_cons, List.cons_prefix_cons]
      simp [other]
    · rw [Text.doubled_cons_of_ne cs quote, List.cons_append, List.cons_prefix_cons,
        List.cons_prefix_cons, ih apart']

/-- A text in apostrophes is commented out as it is without them. -/
theorem commentedOut_enclosed : CommentedOut (Text.enclosed '\'' cs) ↔ CommentedOut cs := by
  rw [Text.enclosed, List.cons_append, commentedOut_cons_of_ne (by decide)]
  induction cs with
  | nil => decide
  | cons c cs ih =>
    by_cases newline : c = '\n'
    · subst newline
      rw [Text.doubled_cons_of_ne cs (by decide), List.cons_append, commentedOut_newline_cons,
        commentedOut_newline_cons, prefix_doubled_iff (by decide), ih]
    · rw [commentedOut_cons_of_ne newline, ← ih]
      by_cases quote : c = '\''
      · rw [quote, Text.doubled_cons_quote, List.cons_append, List.cons_append,
          commentedOut_cons_of_ne (by decide), commentedOut_cons_of_ne (by decide)]
      · rw [Text.doubled_cons_of_ne cs quote, List.cons_append, commentedOut_cons_of_ne newline]

theorem newline_notMem_of_digits (digits : ∀ d ∈ cs, d.isDigit = true) : '\n' ∉ cs :=
  fun listed => absurd (digits _ listed) (by decide)

theorem newline_notMem_append {s t : String} (first : '\n' ∉ s.toList) (second : '\n' ∉ t.toList) :
    '\n' ∉ (s ++ t).toList := by
  rw [String.toList_append, List.mem_append, not_or]
  exact ⟨first, second⟩

theorem newline_notMem_repr (n : Nat) : '\n' ∉ n.repr.toList :=
  newline_notMem_of_digits fun _ listed => Literal.isDigit_of_mem_repr listed

theorem newline_notMem_inPlace {digits : List Char} {k : Int}
    (all : ∀ d ∈ digits, d.isDigit = true) :
    '\n' ∉ (Value.numberLayout.inPlace digits k).toList := by
  have zeros : ∀ n, ∀ d ∈ List.replicate n '0', d.isDigit = true := by
    intro n d listed
    rw [List.eq_of_mem_replicate listed]
    rfl
  have digits_only : ∀ ds : List Char, (∀ d ∈ ds, d.isDigit = true) →
      '\n' ∉ (String.ofList ds).toList := by
    intro ds only
    rw [String.toList_ofList]
    exact newline_notMem_of_digits only
  rw [Binary64.Layout.inPlace]
  split
  · refine newline_notMem_append (by decide) (digits_only _ ?_)
    exact List.forall_mem_append.mpr ⟨zeros _, all⟩
  · dsimp only
    split
    · refine newline_notMem_append (digits_only _ ?_) (by decide)
      exact List.forall_mem_append.mpr ⟨all, zeros _⟩
    · refine newline_notMem_append (newline_notMem_append (digits_only _ ?_) (by decide))
        (digits_only _ ?_)
      · exact fun d listed => all d (List.mem_of_mem_take listed)
      · exact fun d listed => all d (List.mem_of_mem_drop listed)

/-- A number is written on one line. -/
theorem newline_notMem_numberText (x : Binary64) : '\n' ∉ (Value.numberLayout.text x).toList := by
  cases x with
  | nan => decide
  | infinity negative => cases negative <;> decide
  | finite negative rank =>
    have magnitude : '\n' ∉ (Value.numberLayout.magnitude rank).toList := by
      rw [Binary64.Layout.magnitude]
      split
      · decide
      · exact newline_notMem_inPlace fun d listed =>
          Nat.isDigit_of_mem_toDigits (by omega) (by omega) listed
    refine newline_notMem_append ?_ magnitude
    cases negative <;> decide

/-- Of the values that are bound only strings may have several lines. -/
theorem commentedOut_display {v : Value} (bound : v.isPlaceholder = false) :
    CommentedOut v.display.toList ↔ ∀ s, v = .str s → CommentedOut s.toList := by
  have plain (line : '\n' ∉ v.display.toList) (other : ∀ s, v ≠ .str s) :
      CommentedOut v.display.toList ↔ ∀ s, v = .str s → CommentedOut s.toList :=
    iff_of_true (commentedOut_of_newline_notMem line) fun s same => absurd same (other s)
  cases v with
  | str s =>
    rw [Value.display, Text.quoted, String.toList_ofList, commentedOut_enclosed]
    simp
  | placeholder name => cases bound
  | null => exact plain (by decide) (by simp)
  | bool b => exact plain (by cases b <;> decide) (by simp)
  | int i =>
    refine plain ?_ (by simp)
    rw [Value.display]
    cases i.toInt with
    | ofNat n => exact newline_notMem_repr n
    | negSucc n => exact newline_notMem_append (s := "-") (by decide) (newline_notMem_repr (n + 1))
  | float x => exact plain (newline_notMem_numberText x) (by simp)

/-! ### The output -/

/-- The comments are numbered one after the other. -/
theorem paramComments_eq_join (n : Nat) (vs : List Value) :
    paramComments n vs = String.join ((vs.zipIdx n).map fun x =>
      "\n-- $" ++ x.2.repr ++ " = " ++ x.1.display) := by
  induction vs generalizing n with
  | nil => rfl
  | cons v vs ih =>
    rw [paramComments, ih, List.zipIdx_cons, List.map_cons, String.join_cons]

/-- The comments of the parameters are comments on every line if the displayed values are. -/
theorem commentedOut_paramComments (n : Nat) (vs : List Value) :
    CommentedOut (paramComments n vs).toList ↔ ∀ v ∈ vs, CommentedOut v.display.toList := by
  induction vs generalizing n with
  | nil => simp [paramComments, CommentedOut]
  | cons v vs ih =>
    have number : '\n' ∉ (n.repr ++ " = ").toList :=
      newline_notMem_append (newline_notMem_repr n) (by decide)
    have text : (paramComments n (v :: vs)).toList = '\n' :: (commentMark ++
        ((n.repr ++ " = ").toList ++ (v.display.toList ++ (paramComments (n + 1) vs).toList))) := by
      simp [paramComments, commentMark]
    have started : commentMark <+: commentMark ++
        ((n.repr ++ " = ").toList ++ (v.display.toList ++ (paramComments (n + 1) vs).toList)) :=
      List.prefix_append _ _
    rw [text, commentedOut_newline_cons, commentedOut_append_of_newline_notMem (by decide),
      commentedOut_append_of_newline_notMem number, List.forall_mem_cons, ← ih (n + 1)]
    simp only [started, true_and]
    rcases vs with _ | ⟨w, ws⟩
    · simp [paramComments, CommentedOut]
    · obtain ⟨rest, goes_on⟩ : ∃ rest, (paramComments (n + 1) (w :: ws)).toList = '\n' :: rest :=
        ⟨_, by rw [paramComments]; simp; rfl⟩
      rw [goes_on, commentedOut_append_newline]

/-- What a statement binds is no placeholder, so no parameter is one. -/
theorem bound_of_mem_params {d : Descriptor} {q : Sql.Query} {primaryKey : String}
    (formed : d.WellFormed primaryKey) (rendered : Sql.render d = .ok q) :
    ∀ v ∈ q.params, v.isPlaceholder = false := by
  obtain ⟨ps, written, rfl⟩ := Sql.exists_of_map_eq_ok rendered
  have values : (Sql.Query.ofParts ps).params = d.fieldOperands ++ d.filterOperands :=
    (Sql.writes_parts written).values
  rw [values, List.forall_mem_append]
  constructor
  · intro v listed
    have field : v ∈ d.fields.values.filter fun v => !v.isNull := by
      rw [Descriptor.fieldOperands] at listed
      cases kind : d.kind <;> simp only [kind, List.not_mem_nil] at listed <;> exact listed
    exact formed.fields_plain v (List.mem_of_mem_filter field)
  · intro v listed
    have operand : v ∈ d.filterLeaves.filterMap Predicate.operand? := by
      rw [Descriptor.filterOperands] at listed
      cases kind : d.kind <;> simp only [kind, List.not_mem_nil] at listed <;> exact listed
    obtain ⟨leaf, inside, operand⟩ := List.mem_filterMap.mp operand
    cases leaf with
    | comparison field operator w =>
      have plain := formed.leaf_plain inside
      simp only [Predicate.operand?] at operand
      split at operand
      · cases operand
      · exact Option.some.inj operand ▸ plain
    | pattern field regex caseInsensitive =>
      cases operand
      rfl
    | group logic children => cases operand

variable {layout : String → String} {files : String → FileText} {o : Options} {out : String}

theorem eq_ok_of_mapError {α ε ε' : Type} {f : ε → ε'} {x : Except ε α} {a : α}
    (h : x.mapError f = .ok a) : x = .ok a := by
  cases x with
  | error e => cases h
  | ok b => cases h; rfl

/-- A run that prints SQL compiles its statement and renders what it has compiled. -/
theorem run_sql_eq_ok (format : o.format = some .sql) (plain : o.pretty = false)
    (statement : o.printSchema = false) (ran : run layout files o = .ok out) :
    ∃ settings params d q, settingsOf files o = .ok settings ∧ paramsOf files o = .ok params ∧
      compile settings (o.statement.getD "") params = .ok d ∧ Sql.render d = .ok q ∧
      out = q.text ++ paramComments 1 q.params := by
  rw [run, statement, if_neg Bool.false_ne_true] at ran
  obtain ⟨settings, configured, ran⟩ := Sql.exists_of_bind_eq_ok ran
  obtain ⟨params, given, ran⟩ := Sql.exists_of_bind_eq_ok ran
  obtain ⟨d, compiled, ran⟩ := Sql.exists_of_bind_eq_ok ran
  simp only [render, format, plain, Option.getD_some] at ran
  obtain ⟨q, rendered, text⟩ := Sql.exists_of_map_eq_ok ran
  exact ⟨settings, params, d, q, configured, given, eq_ok_of_mapError compiled,
    eq_ok_of_mapError rendered, text.symm⟩

/-- The layout counts only if it is asked for. -/
theorem run_of_plain (plain : o.pretty = false) : run layout files o = run id files o := by
  have text : queryText layout false = queryText id false := rfl
  simp only [run, render, plain, text]

/-- Printed SQL is the text of the query and a comment for each of its parameters. What stands
behind the text is commented out exactly if all strings among the parameters are: a string with a
newline in it leaves the comment, unless the line that follows happens to start like one. -/
theorem run_sql_commentedOut_iff (format : o.format = some .sql) (plain : o.pretty = false)
    (statement : o.printSchema = false) (ran : run layout files o = .ok out) :
    ∃ settings params d q, settingsOf files o = .ok settings ∧ paramsOf files o = .ok params ∧
      compile settings (o.statement.getD "") params = .ok d ∧ Sql.render d = .ok q ∧
      ∃ comments, out = q.text ++ comments ∧
        comments = String.join ((q.params.zipIdx 1).map fun x =>
          "\n-- $" ++ x.2.repr ++ " = " ++ x.1.display) ∧
        (CommentedOut comments.toList ↔ ∀ s, .str s ∈ q.params → CommentedOut s.toList) := by
  obtain ⟨settings, params, d, q, configured, given, compiled, rendered, rfl⟩ :=
    run_sql_eq_ok format plain statement ran
  refine ⟨settings, params, d, q, configured, given, compiled, rendered, paramComments 1 q.params,
    rfl, paramComments_eq_join 1 q.params, ?_⟩
  obtain ⟨_, _, _, form⟩ := compile_eq_ok_iff.mp compiled
  have bound := bound_of_mem_params form.wellFormed rendered
  rw [commentedOut_paramComments]
  constructor
  · intro displayed s listed
    exact (commentedOut_display (bound _ listed)).mp (displayed _ listed) s rfl
  · intro strings v listed
    refine (commentedOut_display (bound v listed)).mpr ?_
    rintro s rfl
    exact strings s listed

theorem run_sql_commentedOut_iff_update :
    ∃ (q : Sql.Query) (comments : String),
      "UPDATE \"t\" SET \"a\" = $1 WHERE (\"b\" = $2)\n-- $1 = 'it''s'\n-- $2 = 2" =
        q.text ++ comments ∧
      (CommentedOut comments.toList ↔ ∀ s, .str s ∈ q.params → CommentedOut s.toList) := by
  have ran : run id (fun _ => .missing)
      { format := some .sql, statement := some "UPDATE t SET a = 'it''s' WHERE b = 2" } =
      .ok "UPDATE \"t\" SET \"a\" = $1 WHERE (\"b\" = $2)\n-- $1 = 'it''s'\n-- $2 = 2" := by
    decide +kernel
  obtain ⟨_, _, _, q, _, _, _, _, comments, text, _, iff⟩ :=
    run_sql_commentedOut_iff rfl rfl rfl ran
  exact ⟨q, comments, text, iff⟩

/-- The newline of a string ends the comment, and the rest of the string stands behind it. -/
theorem not_forall_run_sql_commentedOut :
    ¬ ∃ layout : String → String, ∀ (files : String → FileText) (o : Options) (out : String),
      o.format = some .sql → o.pretty = false → o.printSchema = false →
      run layout files o = .ok out →
      ∀ settings params d q, settingsOf files o = .ok settings → paramsOf files o = .ok params →
        compile settings (o.statement.getD "") params = .ok d → Sql.render d = .ok q →
        ∃ comments, out = q.text ++ comments ∧ CommentedOut comments.toList := by
  rintro ⟨layout, all⟩
  obtain ⟨comments, text, commented⟩ := all (fun _ => .missing)
    { format := some .sql, statement := some "SELECT * FROM t WHERE a = 'x\nDROP TABLE t'" }
    "SELECT * FROM \"t\" WHERE (\"a\" = $1)\n-- $1 = 'x\nDROP TABLE t'" rfl rfl rfl
    (by rw [run_of_plain rfl]; decide +kernel) {} ∅
    { kind := .select
      table := "t"
      filter := some (.comparison "a" .eq (.str "x\nDROP TABLE t")) }
    ⟨"SELECT * FROM \"t\" WHERE (\"a\" = $1)", [.str "x\nDROP TABLE t"]⟩ rfl rfl
    (by decide +kernel) (by decide +kernel)
  have parted : "SELECT * FROM \"t\" WHERE (\"a\" = $1)\n-- $1 = 'x\nDROP TABLE t'" =
      "SELECT * FROM \"t\" WHERE (\"a\" = $1)" ++ "\n-- $1 = 'x\nDROP TABLE t'" := by decide
  have rest : "\n-- $1 = 'x\nDROP TABLE t'".toList = comments.toList := by
    have lists := congrArg String.toList (parted.symm.trans text)
    rw [String.toList_append, String.toList_append] at lists
    exact List.append_cancel_left lists
  rw [← rest] at commented
  revert commented
  decide +kernel

end SqlBridge.CommandLine
