import Mathlib.Tactic.IntervalCases
import SqlBridge.Proofs.Statement.Error

/-!
# Columns and their values

The columns of an insertion are paired with its values position by position. A position is at fault
if its value is a placeholder that is not bound, or if its column stands at an earlier one. The
first position at fault gives the error of the insertion. Without any, each column has its own
value.
-/

namespace SqlBridge

open Reader

variable {params : Params} {columns : List String} {row : List Token} {t : Token} {i : Nat}
  {e : CompileError}

/-! ### Placeholders that are not bound -/

/-- The token is the placeholder of that name, which has no parameter that is a value. -/
def Params.Unbound (params : Params) (t : Token) (name : String) : Prop :=
  t.literal = .placeholder name ∧ ∀ v, params.get? name = some v → v.isPlaceholder = true

/-- A token fails to give a value exactly as a placeholder that is not bound. -/
theorem Params.valueOf_eq_error_iff :
    params.valueOf t = .error e ↔ ∃ name, params.Unbound t name ∧ e = .missingBinding name := by
  have unbound_iff : ∀ name, params.Unbound t name ↔ t.literal = .placeholder name ∧
      ∀ v, params.get? name = some v → v.isPlaceholder = true := fun _ => Iff.rfl
  simp only [valueOf, unbound_iff]
  cases t.literal with
  | placeholder name =>
    rw [bind]
    cases found : params.get? name with
    | none => simp [found, eq_comm (a := e)]
    | some v => cases plain : v.isPlaceholder <;> simp [found, plain, eq_comm (a := e)]
  | _ => simp [bind]

theorem Params.forall_not_unbound_iff :
    (∀ name, ¬ params.Unbound t name) ↔ ∃ v, params.valueOf t = .ok v := by
  constructor
  · intro bound
    cases value : params.valueOf t with
    | error x =>
      obtain ⟨name, unbound, _⟩ := valueOf_eq_error_iff.mp value
      exact absurd unbound (bound name)
    | ok v => exact ⟨v, rfl⟩
  · rintro ⟨v, value⟩ name unbound
    rw [valueOf_eq_error_iff.mpr ⟨name, unbound, rfl⟩] at value
    cases value

namespace Insert

/-- The error of a position: its placeholder is not bound, or else its column stands earlier. -/
inductive FaultAt (params : Params) (columns : List String) (row : List Token) (i : Nat) :
    CompileError → Prop where
  | unbound {t : Token} {name : String} (given : row[i]? = some t)
      (unbound : params.Unbound t name) : FaultAt params columns row i (.missingBinding name)
  | repeated {t : Token} {column : String} (named : columns[i]? = some column)
      (earlier : column ∈ columns.take i) (given : row[i]? = some t)
      (bound : ∀ name, ¬ params.Unbound t name) :
      FaultAt params columns row i (.malformedClause (.repeatedColumn column))

theorem forall_not_faultAt_iff {column : String} (named : columns[i]? = some column)
    (given : row[i]? = some t) : (∀ e, ¬ FaultAt params columns row i e) ↔
      (∃ v, params.valueOf t = .ok v) ∧ column ∉ columns.take i := by
  rw [← Params.forall_not_unbound_iff]
  constructor
  · intro clear
    have bound : ∀ name, ¬ params.Unbound t name := fun _ unbound =>
      clear _ (.unbound given unbound)
    exact ⟨bound, fun earlier => clear _ (.repeated named earlier given bound)⟩
  · rintro ⟨bound, new⟩ e fault
    cases fault with
    | unbound same unbound =>
      obtain rfl := Option.some.inj (given.symm.trans same)
      exact bound _ unbound
    | repeated again earlier =>
      obtain rfl := Option.some.inj (named.symm.trans again)
      exact new earlier

/-! ### One pair -/

theorem assign_cons_of_error {m : OrderedMap Value} {column : String}
    {es : List (String × Token)} (failed : params.valueOf t = .error e) :
    assign params m ((column, t) :: es) = .error e := by
  rw [assign, failed]
  rfl

theorem assign_cons_of_repeated {m : OrderedMap Value} {column : String}
    {es : List (String × Token)} {v : Value} (given : params.valueOf t = .ok v)
    (present : m.contains column = true) :
    assign params m ((column, t) :: es) = .error (.malformedClause (.repeatedColumn column)) := by
  rw [assign, given]
  exact if_pos present

theorem contains_iff_mem_take {m : OrderedMap Value} {column : String}
    (before : m.keys = columns.take i) : m.contains column = true ↔ column ∈ columns.take i := by
  rw [← before, OrderedMap.contains_eq_true_iff]
  rfl

/-- Behind the earlier columns, a position that is at fault fails with its error. -/
theorem assign_of_faultAt {m : OrderedMap Value} {x : String × Token} {es : List (String × Token)}
    (before : m.keys = columns.take i) (here : (columns.zip row)[i]? = some x)
    (fault : FaultAt params columns row i e) : assign params m (x :: es) = .error e := by
  obtain ⟨column, t⟩ := x
  obtain ⟨named, given⟩ := List.getElem?_zip_eq_some.mp here
  cases fault with
  | unbound same unbound =>
    obtain rfl := Option.some.inj (given.symm.trans same)
    exact assign_cons_of_error (Params.valueOf_eq_error_iff.mpr ⟨_, unbound, rfl⟩)
  | repeated again earlier same bound =>
    obtain rfl := Option.some.inj (given.symm.trans same)
    obtain rfl := Option.some.inj (named.symm.trans again)
    obtain ⟨v, value⟩ := Params.forall_not_unbound_iff.mp bound
    exact assign_cons_of_repeated value ((contains_iff_mem_take before).mpr earlier)

/-- Behind the earlier columns, a position that is not at fault adds its own column. -/
theorem assign_of_not_faultAt {m : OrderedMap Value} {x : String × Token}
    (before : m.keys = columns.take i) (here : (columns.zip row)[i]? = some x)
    (clear : ∀ e, ¬ FaultAt params columns row i e) :
    ∃ m', assign params m [x] = .ok m' ∧ m'.keys = columns.take (i + 1) := by
  obtain ⟨column, t⟩ := x
  obtain ⟨named, given⟩ := List.getElem?_zip_eq_some.mp here
  obtain ⟨⟨v, value⟩, apart⟩ := (forall_not_faultAt_iff named given).mp clear
  have new : m.contains column = false := by
    rw [← Bool.not_eq_true, contains_iff_mem_take before]
    exact apart
  refine ⟨m.insert column v, assign_cons_iff.mpr ⟨v, value, new, rfl⟩, ?_⟩
  rw [OrderedMap.keys_insert, new, if_neg Bool.false_ne_true, before, List.take_add_one, named]
  rfl

/-! ### All pairs -/

theorem assign_append {m : OrderedMap Value} {es es' : List (String × Token)} :
    assign params m (es ++ es') = assign params m es >>= fun m' => assign params m' es' := by
  induction es generalizing m with
  | nil => rfl
  | cons x es ih =>
    obtain ⟨column, t⟩ := x
    rw [List.cons_append, assign, assign, bind_assoc]
    refine bind_congr fun v => ?_
    split
    · rfl
    · exact ih

/-- Positions before the first fault add their columns, each as its own. -/
theorem assign_take (same : columns.length = row.length) (bounded : i ≤ columns.length)
    (clear : ∀ j < i, ∀ e, ¬ FaultAt params columns row j e) :
    ∃ m, assign params ∅ ((columns.zip row).take i) = .ok m ∧ m.keys = columns.take i := by
  induction i with
  | zero => exact ⟨∅, rfl, rfl⟩
  | succ i ih =>
    -- the keys are the columns so far: a column is new to the map if it stands nowhere before
    obtain ⟨m, taken, before⟩ := ih (Nat.le_of_succ_le bounded) fun j hj => clear j (by omega)
    have paired : i < (columns.zip row).length := by
      rw [List.length_zip]
      omega
    have here := List.getElem?_eq_getElem paired
    obtain ⟨m', next, keys⟩ := assign_of_not_faultAt before here (clear i (Nat.lt_succ_self i))
    refine ⟨m', ?_, keys⟩
    rw [List.take_add_one, here, assign_append, taken]
    exact next

theorem FaultAt.lt_length (fault : FaultAt params columns row i e) : i < row.length := by
  cases fault with
  | unbound given => exact (List.getElem?_eq_some_iff.mp given).1
  | repeated _ _ given => exact (List.getElem?_eq_some_iff.mp given).1

/-- The first position at fault gives the error. -/
theorem pair_of_first_fault (same : columns.length = row.length)
    (fault : FaultAt params columns row i e)
    (first : ∀ j < i, ∀ x, ¬ FaultAt params columns row j x) :
    pair params columns row = .error e := by
  have inRow := fault.lt_length
  have paired : i < (columns.zip row).length := by
    rw [List.length_zip]
    omega
  obtain ⟨m, taken, before⟩ := assign_take same (same ▸ inRow.le) first
  rw [pair, if_neg (not_not.mpr same), ← List.take_append_drop i (columns.zip row), assign_append,
    taken, List.drop_eq_getElem_cons paired]
  exact assign_of_faultAt before (List.getElem?_eq_getElem paired) fault

/-- Without a fault there is a value for each column. -/
theorem exists_pair_of_clear (same : columns.length = row.length)
    (clear : ∀ i e, ¬ FaultAt params columns row i e) :
    ∃ fields, pair params columns row = .ok fields := by
  obtain ⟨m, taken, _⟩ := assign_take same le_rfl fun j _ => clear j
  rw [List.take_of_length_le (List.length_zip.trans_le (min_le_left _ _))] at taken
  exact ⟨m, by rw [pair, if_neg (not_not.mpr same), taken]⟩

/-! ### Insertions -/

theorem ListsOf.isValue {ts : List Token} {d : Descriptor} (lists : ListsOf ts d columns row) :
    ∀ t ∈ row, t.isValue = true := by
  cases lists with
  | lists _ _ _ _ _ _ given =>
    intro t listed
    induction given with
    | last only => exact List.mem_singleton.mp listed ▸ only.2
    | more first _ ih =>
      rcases List.mem_cons.mp listed with rfl | listed
      · exact first.2
      · exact ih listed

/-- An insertion whose lists are read has the outcome of their pairing. -/
theorem compile_of_listsOf {settings : Settings} {text : String} {tokens : List Token}
    {d : Descriptor} (tokenized : Token.tokenize (Statement.normalize text) = .ok tokens)
    (lists : ListsOf tokens d columns row) :
    compile settings text params =
      (pair params columns row).map fun fields => { d with fields } := by
  have read : Insert.lists.run tokens = (.ok (d, columns, row), []) := by
    have reads : Insert.lists.Reads tokens (d, columns, row) [] := reads_lists.mpr ⟨rfl, lists⟩
    rwa [Reads, List.append_nil] at reads
  have opened := lists.opens.1
  rcases tokens with _ | ⟨t, q⟩
  · exact absurd opened atKeyword_nil
  · cases t with
    | word word =>
      have found : Statement.opening? word = some .insert :=
        Statement.opening?_eq_some_iff_isKeyword.mpr ⟨"INSERT", by decide, atKeyword_cons.mp opened⟩
      rw [compile, tokenized]
      change Statement.ofTokens ⟨settings, params⟩ (.word word :: q) = _
      rw [Statement.ofTokens_of_opening? found, Statement.readerOf, statement_eq, run_bind, read,
        continueWith_ok]
      dsimp only
      rw [run_bind, run_ofExcept]
      cases pair params columns row <;> rfl
    | _ => cases opened

end Insert

/-- An insertion into the listed columns. If there are more columns than values, or fewer, that is
its error whatever they are. Otherwise the first position at fault gives the error, an unbound
placeholder before a repeated column; without a fault the descriptor has each column with the value
at its own position, in order, and nothing else. -/
theorem compile_insertion {settings : Settings} {text table : String} {tokens : List Token}
    {ignoreOnConflict : Bool} {columns : List String} {row : List Token} {params : Params}
    (tokenized : Token.tokenize (Statement.normalize text) = .ok tokens)
    (lists : Insert.ListsOf tokens { kind := .insert, table, ignoreOnConflict } columns row) :
    (columns.length ≠ row.length →
      compile settings text params = .error (.columnCountMismatch columns.length row.length)) ∧
    (columns.length = row.length →
      (∀ i e, Insert.FaultAt params columns row i e →
        (∀ j < i, ∀ x, ¬ Insert.FaultAt params columns row j x) →
          compile settings text params = .error e) ∧
      ((∀ i e, ¬ Insert.FaultAt params columns row i e) →
        ∃ fields : OrderedMap Value, fields.keys = columns ∧
          List.Forall₂ params.ValueOf row fields.values ∧
          compile settings text params =
            .ok { kind := .insert, table, ignoreOnConflict, fields })) := by
  rw [Insert.compile_of_listsOf tokenized lists]
  refine ⟨fun differ => ?_, fun same => ⟨fun i e fault first => ?_, fun clear => ?_⟩⟩
  · rw [Insert.pair, if_pos differ]
    rfl
  · rw [Insert.pair_of_first_fault same fault first]
    rfl
  · obtain ⟨fields, paired⟩ := Insert.exists_pair_of_clear same clear
    obtain ⟨keys, values⟩ := Insert.pair_iff.mp paired
    refine ⟨fields, keys, ?_, by rw [paired]; rfl⟩
    have given := (List.forall₂_and_left _ _).mpr ⟨lists.isValue, values⟩
    exact given.imp fun _ _ => Params.valueOf_iff.mpr

/-- The third column is the first again and its placeholder is not bound: the placeholder is the
error, and the first two positions are in order. -/
theorem compile_insertion_of_unbound_repeated :
    compile {} "INSERT IGNORE INTO t (a, b, a) VALUES (1, :x, :y)" (.ofList [("x", .int 5)]) =
      .error (.missingBinding "y") := by
  obtain ⟨tokens, tokenized, read⟩ : ∃ tokens,
      Token.tokenize (Statement.normalize "INSERT IGNORE INTO t (a, b, a) VALUES (1, :x, :y)") =
        .ok tokens ∧
      Insert.lists.run (tokens ++ []) =
        (.ok ({ kind := .insert, table := "t", ignoreOnConflict := true }, ["a", "b", "a"],
          [.word "1", .word ":x", .word ":y"]), []) :=
    ⟨[.word "INSERT", .word "IGNORE", .word "INTO", .word "t", .leftParen, .word "a", .comma,
      .word "b", .comma, .word "a", .rightParen, .word "VALUES", .leftParen, .word "1", .comma,
      .word ":x", .comma, .word ":y", .rightParen], by decide +kernel, by decide +kernel⟩
  have lists := (Insert.reads_lists.mp read).2
  refine ((compile_insertion tokenized lists).2 rfl).1 2 _ (.unbound rfl ⟨by decide, by decide⟩) ?_
  intro j hj
  interval_cases j
  · exact (Insert.forall_not_faultAt_iff rfl rfl).mpr ⟨⟨.int 1, by decide⟩, by decide⟩
  · exact (Insert.forall_not_faultAt_iff rfl rfl).mpr ⟨⟨.int 5, by decide⟩, by decide⟩

end SqlBridge
