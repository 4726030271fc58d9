import SqlBridge.Proofs.Condition.Nesting
import SqlBridge.Proofs.Statement.Agreement
import SqlBridge.Proofs.Statement.Filter

/-!
# What the settings do

Each setting acts in one place. The depth that is allowed decides whether a WHERE clause that nests
as deep compiles, and never what it compiles to. Whether LIKE minds case shows in the patterns of
the filter, and the primary key in the one excluded entry of the projection; neither decides whether
a statement compiles.
-/

namespace SqlBridge

variable {ctx : Context} {p rest : List Token} {d : Descriptor}

/-! ### The clause of a statement -/

namespace Statement

/-- Whether a token in its place opens the WHERE clause. -/
def opensWhere (x : Token × Place) : Bool :=
  x.1.isKeyword "WHERE" && !x.2.holdsValue

/-- Whether a token in its place starts the clause behind a condition. -/
def endsWhere (x : Token × Place) : Bool :=
  x.2 = .joined && Condition.isBoundary x.1

/-- The tokens of the WHERE clause of a statement, without its keyword. -/
def whereClause (tokens : List Token) : List Token :=
  ((((places tokens).dropWhile fun x => !opensWhere x).tail).takeWhile
    fun x => !endsWhere x).map Prod.fst

end Statement

namespace Condition

open Statement

theorem ConditionOf.goes_on {x : Predicate} (h : ConditionOf ctx p x) :
    ∀ y ∈ Place.field.along p, endsWhere y = false := by
  have start : ∃ t u v field, p = [t, u, v] ∧ FieldOf t field := by
    cases h <;> exact ⟨_, _, _, _, rfl, ‹_›⟩
  obtain ⟨t, u, v, _, rfl, named⟩ := start
  -- neither the field nor the operator nor the operand stands where a clause may start
  refine (Place.forall_along_cons (Place.field_next named.ne_paren.1)).mpr ⟨rfl, ?_⟩
  exact (Place.forall_along_cons rfl).mpr ⟨rfl, (Place.forall_along_cons rfl).mpr ⟨rfl, by
    simp [Place.along]⟩⟩

/-- Within a chain no other clause starts. -/
theorem ChainAt.goes_on {n : Nat} {x : Predicate} {cs : List Predicate}
    (h : ChainAt ctx n p x cs) : ∀ y ∈ Place.field.along p, endsWhere y = false := by
  induction h using ChainAt.induct
    (T := fun _ p _ _ => ∀ y ∈ Place.field.along p, endsWhere y = false)
    (Q := fun _ p _ _ => ∀ y ∈ Place.joined.along p, endsWhere y = false) with
  | condition single y hy => exact single.goes_on y hy
  | @enclosed _ p _ _ _ chain inner y hy =>
    have closed : ∀ y ∈ Place.field.along (p ++ [.rightParen]), endsWhere y = false :=
      (Place.forall_along_append chain.walk.after_eq).mpr
        ⟨inner, by simp [Place.along, endsWhere, isBoundary, Token.isKeyword]⟩
    have leads : Place.field.next .leftParen = .field := rfl
    refine (Place.forall_along_cons leads).mpr ⟨?_, closed⟩ y hy
    rfl
  | nil y hy => cases hy
  | cons connects single term others y hy =>
    have goes_on := (Place.forall_along_append single.chain.walk.after_eq).mpr ⟨term, others⟩
    refine (Place.forall_along_cons connects.joined_next).mpr ⟨?_, goes_on⟩ y hy
    simp [endsWhere, connects.goes_on.2]
  | fold single _ first others =>
    exact (Place.forall_along_append single.chain.walk.after_eq).mpr ⟨first, others⟩

/-- Behind a clause another one starts at once. -/
theorem EndsClause.takeWhile_eq_nil (h : EndsClause rest) :
    (Place.joined.along rest).takeWhile (fun x => !endsWhere x) = [] := by
  cases h with
  | nil => rfl
  | @keyword text k rest later same =>
    have boundary : isBoundary (.word text) = true := List.any_eq_true.mpr ⟨k, later, same⟩
    rw [Place.along, List.takeWhile_cons_of_neg]
    simp [endsWhere, boundary]

end Condition

namespace Statement.Opening.Parted

variable {o : Opening} {before clause : List Token}

/-- What parts a statement as its clause is the clause that its tokens have. -/
theorem whereClause_eq (h : o.Parted ctx before clause rest d) :
    whereClause (before ++ (clause ++ rest)) = clause.tail := by
  have unopened : ∀ {s : Place} {q}, s.Unfiltered q →
      ∀ x ∈ s.along q, (!opensWhere x) = true := by
    intro s q unfiltered x listed
    cases same : x.1.isKeyword "WHERE" with
    | false => simp [opensWhere, same]
    | true => simp [opensWhere, unfiltered x listed same]
  have filtered := h.filtered
  generalize filter : d.filter = read at filtered
  cases filtered with
  | absent =>
    have dropped := List.dropWhile_eq_nil_iff.mpr (unopened (h.unfiltered_of_eq_none filter).2)
    rw [whereClause, places, dropped]
    rfl
  | @clause k after x _ opens chain ends =>
    have starts := h.starts.resolve_left (List.cons_ne_nil _ _)
    have stops : opensWhere (k, Place.opening.after before) = true := by
      rw [opensWhere, opens, starts.free]
      rfl
    have dropped : (places (before ++ (k :: after ++ rest))).dropWhile (fun x => !opensWhere x) =
        (k, Place.opening.after before) ::
          (Place.field.along after ++ Place.joined.along rest) := by
      rw [places, Place.along_append, List.dropWhile_append_of_pos (unopened h.unfiltered),
        List.cons_append, Place.along, List.dropWhile_cons_of_neg (by simp [stops]),
        Place.next_where starts opens, Place.along_append, chain.walk.after_eq]
    have others : ∀ x ∈ Place.field.along after, (!endsWhere x) = true := by
      intro x listed
      rw [chain.goes_on x listed]
      rfl
    rw [whereClause, dropped, List.tail_cons, List.takeWhile_append_of_pos others,
      ends.takeWhile_eq_nil, List.append_nil, Place.map_fst_along, List.tail_cons]

end Statement.Opening.Parted

example :
    Statement.whereClause [.word "SELECT", .word "*", .word "FROM", .word "t", .word "WHERE",
      .leftParen, .word "limit", .symbol "=", .word "where", .rightParen, .word "LIMIT",
      .word "5"] =
      [.leftParen, .word "limit", .symbol "=", .word "where", .rightParen] := by
  decide

/-! ### The allowed depth -/

/-- Under a limit the statements compile that compile under any, if their clause keeps it. -/
theorem compile_depth_iff {settings : Settings} {text : String} {params : Params} {n : UInt64} :
    compile { settings with maxPredicateDepth := n } text params = .ok d ↔
      ∃ tokens, Token.tokenize (Statement.normalize text) = .ok tokens ∧
        (∃ m, compile { settings with maxPredicateDepth := m } text params = .ok d) ∧
        Token.nesting (Statement.whereClause tokens) ≤ n.toNat := by
  constructor
  · intro h
    obtain ⟨tokens, o, tokenized, form⟩ := compile_eq_ok_iff.mp h
    obtain ⟨before, clause, rest, rfl, parted⟩ := form.parted
    refine ⟨_, tokenized, ⟨n, h⟩, ?_⟩
    rw [parted.whereClause_eq]
    exact parted.filtered.nesting_le
  · rintro ⟨tokens, tokenized, ⟨m, h⟩, deep⟩
    obtain ⟨_, o, again, form⟩ := compile_eq_ok_iff.mp h
    obtain rfl := Except.ok.inj (tokenized.symm.trans again)
    obtain ⟨before, clause, rest, rfl, parted⟩ := form.parted
    rw [parted.whereClause_eq] at deep
    have filtered : Condition.WhereOf ⟨{ settings with maxPredicateDepth := n }, params⟩ rest clause
        d.filter := parted.filtered.again rfl deep
    exact compile_eq_ok_iff.mpr ⟨_, o, tokenized, parted.again _ rfl filtered⟩

/-! ### Case and key -/

section

variable {settings : Settings} {text : String} {params : Params}

theorem withCase_of_compile (h : compile settings text params = .ok d) :
    d.filter.map (Predicate.withCase settings.caseInsensitiveLike) = d.filter :=
  congrArg Descriptor.filter (Descriptor.under_of_compile h)

theorem excluding_of_compile (h : compile settings text params = .ok d) :
    d.projection.excluding settings.primaryKey = d.projection :=
  congrArg Descriptor.projection (Descriptor.under_of_compile h)

/-- Another flag for patterns changes the flags of the patterns. -/
theorem compile_withCase (b : Bool) :
    compile { settings with caseInsensitiveLike := b } text params =
      (compile settings text params).map fun d =>
        { d with filter := d.filter.map (Predicate.withCase b) } := by
  have under : compile { settings with caseInsensitiveLike := b } text params =
      (compile settings text params).map
        (Descriptor.under { settings with caseInsensitiveLike := b }) :=
    compile_under rfl fun _ _ _ _ => rfl
  rw [under]
  cases compiled : compile settings text params with
  | error e => rfl
  | ok d => simp only [Except.map, Descriptor.under, excluding_of_compile compiled]

/-- Another primary key changes the entry that excludes it. -/
theorem compile_excluding (key : String) :
    compile { settings with primaryKey := key } text params =
      (compile settings text params).map fun d =>
        { d with projection := d.projection.excluding key } := by
  have under : compile { settings with primaryKey := key } text params =
      (compile settings text params).map (Descriptor.under { settings with primaryKey := key }) :=
    compile_under rfl fun _ _ _ _ => rfl
  rw [under]
  cases compiled : compile settings text params with
  | error e => rfl
  | ok d => simp only [Except.map, Descriptor.under, withCase_of_compile compiled]

/-- Every pattern of a filter minds case as it is set. -/
theorem case_of_compile (h : compile settings text params = .ok d) {x : Predicate}
    (filter : d.filter = some x) {field regex : String} {b : Bool}
    (listed : .pattern field regex b ∈ x.leaves) : b = settings.caseInsensitiveLike := by
  have fixed := withCase_of_compile h
  rw [filter, Option.map_some, Option.some.injEq] at fixed
  rw [← fixed] at listed
  exact Predicate.case_of_mem_leaves listed

end

/-- Each setting acts where it should and nowhere else: the depth decides, by the parentheses of the
clause, whether a statement compiles; case decides the flags of the patterns; and the primary key
decides the entry that excludes it. -/
theorem settings_of_compile (settings : Settings) (text : String) (params : Params) :
    (∀ n m d, n ≤ m →
      compile { settings with maxPredicateDepth := n } text params = .ok d →
        compile { settings with maxPredicateDepth := m } text params = .ok d) ∧
    (∀ n d, compile { settings with maxPredicateDepth := n } text params = .ok d ↔
      ∃ tokens, Token.tokenize (Statement.normalize text) = .ok tokens ∧
        (∃ m, compile { settings with maxPredicateDepth := m } text params = .ok d) ∧
        Token.nesting (Statement.whereClause tokens) ≤ n.toNat) ∧
    (∀ b, compile { settings with caseInsensitiveLike := b } text params =
      (compile settings text params).map fun d =>
        { d with filter := d.filter.map (Predicate.withCase b) }) ∧
    (∀ d x, compile settings text params = .ok d → d.filter = some x → ∀ field regex b,
      .pattern field regex b ∈ x.leaves → b = settings.caseInsensitiveLike) ∧
    (∀ key, compile { settings with primaryKey := key } text params =
      (compile settings text params).map fun d =>
        { d with projection := d.projection.excluding key }) ∧
    ∀ d, compile settings text params = .ok d → ∀ e ∈ d.projection.entries, e.2 = false →
      e = (settings.primaryKey, false) := by
  refine ⟨?_, fun _ _ => compile_depth_iff, compile_withCase, ?_, compile_excluding, ?_⟩
  · intro n m d smaller h
    obtain ⟨tokens, tokenized, some, deep⟩ := compile_depth_iff.mp h
    exact compile_depth_iff.mpr ⟨tokens, tokenized, some, Nat.le_trans deep smaller⟩
  · intro d x h filter field regex b
    exact case_of_compile h filter
  · intro d h e listed
    rw [← excluding_of_compile h] at listed
    exact OrderedMap.eq_of_mem_excluding listed

theorem settings_of_compile_nested :
    compile { maxPredicateDepth := 9 } "SELECT a FROM t WHERE ((b LIKE 'x'))" ∅ = .ok {
      kind := .select
      table := "t"
      filter := some (.pattern "b" "^x$" true)
      projection := .ofList [("a", true), ("_id", false)] } ∧
    true = ({ maxPredicateDepth := 2 } : Settings).caseInsensitiveLike ∧
    ("_id", false) = (({ maxPredicateDepth := 2 } : Settings).primaryKey, false) := by
  have compiles : compile { maxPredicateDepth := 2 } "SELECT a FROM t WHERE ((b LIKE 'x'))" ∅ =
      .ok {
        kind := .select
        table := "t"
        filter := some (.pattern "b" "^x$" true)
        projection := .ofList [("a", true), ("_id", false)] } := by
    decide +kernel
  obtain ⟨deeper, _, _, flags, _, excluded⟩ := settings_of_compile { maxPredicateDepth := 2 }
    "SELECT a FROM t WHERE ((b LIKE 'x'))" ∅
  refine ⟨deeper 2 9 _ (by decide) compiles, ?_, ?_⟩
  · exact flags _ _ compiles rfl "b" "^x$" true (by simp)
  · exact excluded _ compiles _ (by decide) rfl

end SqlBridge
