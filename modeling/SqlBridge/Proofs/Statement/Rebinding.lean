import SqlBridge.Proofs.Descriptor.Alike
import SqlBridge.Proofs.Literal
import SqlBridge.Proofs.Statement.Place

/-!
# Compiling with other parameters

If two maps of parameters have the same names and bind the same ones to null, the tokens of a
statement mean the same with either of them, apart from the values that the names stand for. A
statement that compiles with one map therefore compiles with the other, to a descriptor that is
alike, as long as LIMIT and OFFSET have the same operands. Bound values so have no way into the
structure of what is rendered.
-/

namespace SqlBridge

/-- The same names with other values: none is a placeholder, and the same are null. -/
structure Params.Rebinds (params params' : Params) : Prop where
  names : ∀ name, params.contains name = params'.contains name
  plain : ∀ v ∈ params.values, v.isPlaceholder = false
  plain' : ∀ v ∈ params'.values, v.isPlaceholder = false
  nulls : ∀ name, params.get? name = some .null ↔ params'.get? name = some .null

/-- One value of the statement itself, or the values of one name in the two maps. -/
def Params.Rebound (params params' : Params) (v w : Value) : Prop :=
  v = w ∨ ∃ name, params.get? name = some v ∧ params'.get? name = some w

variable {settings : Settings} {params params' : Params} {p rest : List Token} {d d' : Descriptor}

/-! ### Values -/

namespace Params

theorem Rebinds.get? (r : params.Rebinds params') {name : String} {v : Value}
    (found : params.get? name = some v) :
    ∃ w, params'.get? name = some w ∧ w.isPlaceholder = false := by
  have present : params.contains name = true :=
    OrderedMap.contains_eq_true_iff.mpr (List.mem_map_of_mem (OrderedMap.mem_entries_of_get? found))
  rw [r.names] at present
  obtain ⟨w, found', listed⟩ := OrderedMap.get?_of_contains present
  exact ⟨w, found', r.plain' w (List.mem_map_of_mem listed)⟩

theorem Rebinds.isNull_eq (r : params.Rebinds params') {v w : Value}
    (h : params.Rebound params' v w) : v.isNull = w.isNull := by
  have null_iff : ∀ u : Value, u.isNull = true ↔ u = .null := by
    intro u
    cases u <;> simp [Value.isNull]
  rcases h with rfl | ⟨name, found, found'⟩
  · rfl
  · rw [Bool.eq_iff_iff, null_iff, null_iff]
    have nulls := r.nulls name
    simpa [found, found'] using nulls

theorem Rebinds.valueOf (r : params.Rebinds params') {t : Token} {v : Value}
    (given : params.ValueOf t v) : ∃ w, params'.ValueOf t w ∧ params.Rebound params' v w := by
  cases given with
  | literal value plain => exact ⟨_, .literal value plain, .inl rfl⟩
  | bound value placeholder found plain =>
    obtain ⟨w, found', plain'⟩ := r.get? found
    exact ⟨w, .bound value placeholder found' plain', .inr ⟨_, found, found'⟩⟩

/-- A token gives the same value if its placeholder is bound to the same value. -/
theorem valueOf_congr {t : Token}
    (same : ∀ name, t.literal = .placeholder name → params.get? name = params'.get? name) :
    params.valueOf t = params'.valueOf t := by
  rw [valueOf, valueOf]
  cases literal : t.literal with
  | placeholder name => rw [bind, bind, same name literal]
  | _ => rfl

end Params

/-! ### Lists -/

section Lists

variable {α β : Type} {R : α → β → Prop}

theorem Numbered.exists_forall₂ {J : Nat → List Token → α → Prop} {K : Nat → List Token → β → Prop}
    {n : Nat} {as : List α} (items : Numbered J rest n p as)
    (each : ∀ {n p a}, J n p a → ∃ b, K n p b ∧ R a b) :
    ∃ bs, Numbered K rest n p bs ∧ List.Forall₂ R as bs := by
  induction items with
  | last only ended =>
    obtain ⟨b, single, related⟩ := each only
    exact ⟨[b], .last single ended, .cons related .nil⟩
  | more first _ ih =>
    obtain ⟨b, single, related⟩ := each first
    obtain ⟨bs, others, tail⟩ := ih
    exact ⟨b :: bs, .more single others, .cons related tail⟩

theorem Reader.Items.exists_forall₂ {J : List Token → α → Prop} {K : List Token → β → Prop}
    {as : List α} (items : Items (fun _ => J) rest p as)
    (each : ∀ {p a}, J p a → ∃ b, K p b ∧ R a b) :
    ∃ bs, Items (fun _ => K) rest p bs ∧ List.Forall₂ R as bs := by
  obtain ⟨bs, others, related⟩ := (numbered_iff_items (n := 0)).mpr items |>.exists_forall₂
    (K := fun _ => K) each
  exact ⟨bs, numbered_iff_items.mp others, related⟩

theorem exists_entries_of_sameKey {m : OrderedMap α} {fs : List (String × β)}
    (h : List.Forall₂ (SameKey R) m.entries fs) : ∃ n : OrderedMap β, n.entries = fs :=
  ⟨⟨fs, keys_eq_of_sameKey h ▸ m.nodup⟩, rfl⟩

theorem exists_sameKey_of_values {es : List (String × α)} {bs : List β}
    (h : List.Forall₂ R (es.map Prod.snd) bs) :
    ∃ fs, List.Forall₂ (SameKey R) es fs ∧ fs.map Prod.snd = bs := by
  induction es generalizing bs with
  | nil =>
    cases h
    exact ⟨[], .nil, rfl⟩
  | cons e es ih =>
    cases h with
    | @cons _ b _ _ first others =>
      obtain ⟨fs, tail, rfl⟩ := ih others
      exact ⟨(e.1, b) :: fs, .cons ⟨rfl, first⟩ tail, rfl⟩

end Lists

/-! ### Conditions -/

namespace Predicate

variable {V : Value → Value → Prop}

/-- Chains of one form, with related values at the leaves. -/
inductive Chain.Alike (V : Value → Value → Prop) : Chain → Chain → Prop where
  | single {x y : Predicate} (alike : x.Alike V y) : Alike V (.single x) (.single y)
  | run {logic : Logic} {xs ys : List Predicate} (all : List.Forall₂ (Predicate.Alike V) xs ys) :
      Alike V (.run logic xs) (.run logic ys)

theorem Chain.Alike.add {b c : Chain} {logic : Logic} {x y : Predicate} (h : b.Alike V c)
    (alike : x.Alike V y) : (b.add logic x).Alike V (c.add logic y) := by
  cases h with
  | single first => exact .run (.cons first (.cons alike .nil))
  | @run l _ _ all =>
    by_cases same : l = logic
    · rw [Chain.add, Chain.add, if_pos same, if_pos same]
      exact .run (List.rel_append all (.cons alike .nil))
    · rw [Chain.add, Chain.add, if_neg same, if_neg same]
      exact .run (.cons (.group all) (.cons alike .nil))

theorem Chain.Alike.toPredicate {b c : Chain} (h : b.Alike V c) :
    b.toPredicate.Alike V c.toPredicate := by
  cases h with
  | single alike => exact alike
  | run all => exact .group all

theorem alike_ofChain {x y : Predicate} {ss ts : List (Logic × Predicate)} (first : x.Alike V y)
    (others : List.Forall₂ (fun s t => s.1 = t.1 ∧ s.2.Alike V t.2) ss ts) :
    (ofChain x ss).Alike V (ofChain y ts) := by
  have general : ∀ b c : Chain, b.Alike V c → (ss.foldl (fun c t => c.add t.1 t.2) b).Alike V
      (ts.foldl (fun c t => c.add t.1 t.2) c) := by
    induction others with
    | nil => exact fun _ _ h => h
    | cons first _ ih =>
      intro b c h
      rw [List.foldl_cons, List.foldl_cons, ← first.1]
      exact ih _ _ (h.add first.2)
  exact (general _ _ (.single first)).toPredicate

end Predicate

namespace Condition

variable {filter : Option Predicate}

theorem ConditionOf.rebind (r : params.Rebinds params') {x : Predicate}
    (h : ConditionOf ⟨settings, params⟩ p x) :
    ∃ y, ConditionOf ⟨settings, params'⟩ p y ∧ x.Alike (params.Rebound params') y := by
  cases h with
  | comparison named denoted given =>
    obtain ⟨w, given', related⟩ := r.valueOf given
    exact ⟨_, .comparison named denoted given', .comparison related⟩
  | pattern named like given present =>
    obtain ⟨w, given', related⟩ := r.valueOf given
    have nulls := r.isNull_eq related
    refine ⟨_, .pattern named like given' ?_, .pattern related⟩
    rintro rfl
    cases ‹Value› <;> first | exact present rfl | cases nulls

theorem ChainAt.rebind (r : params.Rebinds params') {n : Nat} {x : Predicate} {cs : List Predicate}
    (h : ChainAt ⟨settings, params⟩ n p x cs) :
    ∃ y cs', ChainAt ⟨settings, params'⟩ n p y cs' ∧ x.Alike (params.Rebound params') y := by
  induction h using ChainAt.induct
    (T := fun n p x _ => ∃ y cs', TermAt ⟨settings, params'⟩ n p y cs' ∧
      x.Alike (params.Rebound params') y)
    (Q := fun n p ss _ => ∃ ts cs', TailAt ⟨settings, params'⟩ n p ts cs' ∧
      List.Forall₂ (fun s t => s.1 = t.1 ∧ s.2.Alike (params.Rebound params') t.2) ss ts) with
  | condition single =>
    obtain ⟨y, single', alike⟩ := single.rebind r
    exact ⟨y, _, .condition single', alike⟩
  | enclosed room _ inner =>
    obtain ⟨y, cs', inner', alike⟩ := inner
    exact ⟨y, cs', .enclosed room inner', alike⟩
  | nil => exact ⟨[], [], .nil, .nil⟩
  | cons connects _ term others =>
    obtain ⟨y, _, term', alike⟩ := term
    obtain ⟨ts, _, others', tail⟩ := others
    exact ⟨_, _, .cons connects term' others', .cons ⟨rfl, alike⟩ tail⟩
  | fold _ _ first others =>
    obtain ⟨_, _, first', alike⟩ := first
    obtain ⟨_, _, others', tail⟩ := others
    exact ⟨_, _, .fold first' others', Predicate.alike_ofChain alike tail⟩

theorem WhereOf.rebind (r : params.Rebinds params')
    (h : WhereOf ⟨settings, params⟩ rest p filter) :
    ∃ filter', WhereOf ⟨settings, params'⟩ rest p filter' ∧
      Option.Rel (Predicate.Alike (params.Rebound params')) filter filter' := by
  cases h with
  | clause opens chain ends =>
    obtain ⟨_, _, chain', alike⟩ := chain.rebind r
    exact ⟨_, .clause opens chain' ends, .some alike⟩
  | absent ended => exact ⟨_, .absent ended, .none⟩

end Condition

/-! ### LIMIT -/

namespace Ordering

/-- LIMIT with the same operands means the same. -/
theorem LimitOf.rebind {s : Place} {o : Option Limit} (starts : s.StartsClause)
    (counts : ∀ t n, (t, .count) ∈ s.along p → Context.CountOf ⟨settings, params⟩ t n →
      Context.CountOf ⟨settings, params'⟩ t n)
    (h : LimitOf ⟨settings, params⟩ rest p o) : LimitOf ⟨settings, params'⟩ rest p o := by
  cases h with
  | count limit given ended =>
    exact .count limit (counts _ _ (by simp [Place.along, next_limit starts limit]) given) ended
  | pair limit first second =>
    simp only [Place.along, next_limit starts limit] at counts
    exact .pair limit (counts _ _ (by simp) first)
      (counts _ _ (by simp [Place.next]) second)
  | offset limit first offset second =>
    simp only [Place.along, next_limit starts limit] at counts
    exact .offset limit (counts _ _ (by simp) first) offset
      (counts _ _ (by simp [Place.next, offset]) second)
  | absent ended => exact .absent ended

end Ordering

/-! ### Statements -/

theorem Delete.StatementOf.rebind (r : params.Rebinds params')
    (h : StatementOf ⟨settings, params⟩ p d) :
    ∃ d', StatementOf ⟨settings, params'⟩ p d' ∧ d.Alike (params.Rebound params') d' := by
  cases h with
  | delete delete from_ named filtered =>
    obtain ⟨_, filtered', filters⟩ := filtered.rebind r
    exact ⟨_, .delete delete from_ named filtered', .values filters .nil⟩

theorem Update.StatementOf.rebind (r : params.Rebinds params')
    (h : StatementOf ⟨settings, params⟩ p d) :
    ∃ d', StatementOf ⟨settings, params'⟩ p d' ∧ d.Alike (params.Rebound params') d' := by
  cases h with
  | update update named set assigned filtered =>
    have each : ∀ {p e}, AssignmentOf params p e →
        ∃ f, AssignmentOf params' p f ∧ SameKey (params.Rebound params') e f := by
      intro p e assignment
      cases assignment with
      | assignment named given =>
        obtain ⟨w, given', related⟩ := r.valueOf given
        exact ⟨_, .assignment named given', rfl, related⟩
    obtain ⟨fs, assigned', entries⟩ := assigned.exists_forall₂ each
    obtain ⟨fields', rfl⟩ := exists_entries_of_sameKey entries
    obtain ⟨_, filtered', filters⟩ := filtered.rebind r
    exact ⟨_, .update update named set assigned' filtered', .values filters entries⟩

theorem Insert.StatementOf.rebind (r : params.Rebinds params')
    (h : StatementOf ⟨settings, params⟩ p d) :
    ∃ d', StatementOf ⟨settings, params'⟩ p d' ∧ d.Alike (params.Rebound params') d' := by
  cases h with
  | insert insert ignoring into named columns values row =>
    have each : ∀ {p v}, ValueAt params p v →
        ∃ w, ValueAt params' p w ∧ params.Rebound params' v w := by
      rintro p v ⟨t, rfl, given⟩
      obtain ⟨w, given', related⟩ := r.valueOf given
      exact ⟨w, ⟨t, rfl, given'⟩, related⟩
    obtain ⟨ws, row', related⟩ := row.exists_forall₂ each
    obtain ⟨fs, entries, rfl⟩ := exists_sameKey_of_values related
    obtain ⟨fields', rfl⟩ := exists_entries_of_sameKey entries
    have keys := keys_eq_of_sameKey entries
    rw [OrderedMap.keys, keys] at columns
    exact ⟨_, .insert insert ignoring into named columns values row', .values .none entries⟩

namespace Procedure

theorem ArgumentOf.rebind (r : params.Rebinds params') {position : Nat} {e : String × Value}
    (h : ArgumentOf params position p e) :
    ∃ f, ArgumentOf params' position p f ∧ SameKey (params.Rebound params') e f := by
  cases h with
  | literal value plain => exact ⟨_, .literal value plain, rfl, .inl rfl⟩
  | bound value placeholder found plain =>
    obtain ⟨w, found', plain'⟩ := r.get? found
    exact ⟨_, .bound value placeholder found' plain', rfl, .inr ⟨_, found, found'⟩⟩

theorem ArgumentsOf.rebind (r : params.Rebinds params') {fields : OrderedMap Value}
    (h : ArgumentsOf ⟨settings, params⟩ rest p fields) :
    ∃ fields', ArgumentsOf ⟨settings, params'⟩ rest p fields' ∧
      List.Forall₂ (SameKey (params.Rebound params')) fields.entries fields'.entries := by
  cases h with
  | nothing ended => exact ⟨_, .nothing ended, .nil⟩
  | empty => exact ⟨_, .empty, .nil⟩
  | listed items =>
    obtain ⟨fs, items', entries⟩ := items.exists_forall₂ (ArgumentOf.rebind r)
    obtain ⟨fields', rfl⟩ := exists_entries_of_sameKey entries
    exact ⟨fields', .listed items', entries⟩

theorem StatementOf.rebind (r : params.Rebinds params')
    (h : StatementOf ⟨settings, params⟩ p d) :
    ∃ d', StatementOf ⟨settings, params'⟩ p d' ∧ d.Alike (params.Rebound params') d' := by
  cases h with
  | call called opens named passed =>
    obtain ⟨_, passed', entries⟩ := passed.rebind r
    exact ⟨_, .call called opens named passed', .values .none entries⟩
  | block opens named passed first closes second =>
    obtain ⟨_, passed', entries⟩ := passed.rebind r
    exact ⟨_, .block opens named passed' first closes second, .values .none entries⟩

end Procedure

def Params.SameCounts (params params' : Params) (tokens : List Token) : Prop :=
  ∀ word name, (.word word, .count) ∈ Statement.places tokens →
    Literal.placeholder? word = some name → params.get? name = params'.get? name

theorem Params.SameCounts.countOf {tokens : List Token} (same : params.SameCounts params' tokens)
    {t : Token} {n : UInt64} (stands : (t, .count) ∈ Statement.places tokens)
    (h : Context.CountOf ⟨settings, params⟩ t n) : Context.CountOf ⟨settings, params'⟩ t n := by
  obtain ⟨value, count⟩ := h
  have values : params.valueOf t = params'.valueOf t := by
    refine valueOf_congr fun name literal => ?_
    obtain ⟨word, rfl, placeholder⟩ := Token.word_of_literal_eq_placeholder literal
    exact same word name stands placeholder
  refine ⟨value, ?_⟩
  rw [Params.countOf, values] at count
  exact count

theorem Select.StatementOf.rebind (r : params.Rebinds params') (same : params.SameCounts params' p)
    (h : StatementOf ⟨settings, params⟩ p d) :
    ∃ d', StatementOf ⟨settings, params'⟩ p d' ∧ d.Alike (params.Rebound params') d' := by
  cases h with
  | @select k f w c _ _ _ _ _ _ _ _ _ select marked listed from_ clauses shows =>
    cases clauses with
    | @clauses t j p o l _ _ _ _ _ named joined filtered ordered limited =>
      obtain ⟨_, filtered', filters⟩ := filtered.rebind r
      obtain ⟨s, before, starts⟩ :=
        walk_before_limit select marked listed from_ named joined filtered ordered
      have counts : ∀ t n, (t, .count) ∈ s.along l → Context.CountOf ⟨settings, params⟩ t n →
          Context.CountOf ⟨settings, params'⟩ t n := by
        intro u n stands given
        refine same.countOf ?_ given
        have split := Place.opening.along_append
          (k :: (w ++ (c ++ f :: (t ++ (j ++ (p ++ o)))))) l
        rw [before.after_eq] at split
        simp only [List.cons_append, List.append_assoc] at split
        rw [Statement.places, split]
        exact List.mem_append_right _ stands
      have limited' := limited.rebind starts counts
      exact ⟨_, .select select marked listed from_
        (.clauses named joined filtered' ordered limited') shows, .values filters .nil⟩

/-- A statement means the same with other parameters, up to the values of its placeholders. -/
theorem Statement.Opening.FormOf.rebind {o : Statement.Opening} (r : params.Rebinds params')
    (same : params.SameCounts params' p) (h : o.FormOf ⟨settings, params⟩ p d) :
    ∃ d', o.FormOf ⟨settings, params'⟩ p d' ∧ d.Alike (params.Rebound params') d' := by
  cases o with
  | select => exact Select.StatementOf.rebind r same h
  | insert => exact Insert.StatementOf.rebind r h
  | update => exact Update.StatementOf.rebind r h
  | delete => exact Delete.StatementOf.rebind r h
  | procedure => exact Procedure.StatementOf.rebind r h

/-! ### Compiled statements -/

/-- If a statement compiles with one map of parameters, it compiles with another to a descriptor
that is alike. -/
theorem compile_rebind {text : String} (r : params.Rebinds params')
    (same : ∀ tokens, Token.tokenize (Statement.normalize text) = .ok tokens →
      params.SameCounts params' tokens)
    (h : compile settings text params = .ok d) :
    ∃ d', compile settings text params' = .ok d' ∧ d.Alike (params.Rebound params') d' := by
  obtain ⟨tokens, o, tokenized, form⟩ := compile_eq_ok_iff.mp h
  obtain ⟨d', form', alike⟩ := form.rebind r (same tokens tokenized)
  exact ⟨d', compile_eq_ok_iff.mpr ⟨tokens, o, tokenized, form'⟩, alike⟩

/-- What is rendered has the same structure whatever values the names are bound to: the SQL text is
the same, and the document differs in leaves only. -/
theorem structure_of_rebinding {text : String} (r : params.Rebinds params')
    (same : ∀ tokens, Token.tokenize (Statement.normalize text) = .ok tokens →
      params.SameCounts params' tokens)
    (h : compile settings text params = .ok d) (h' : compile settings text params' = .ok d') :
    (∀ q q', Sql.render d = .ok q → Sql.render d' = .ok q' → q.text = q'.text) ∧
      ∀ j j', Document.command d = .ok j → Document.command d' = .ok j' →
        Document.Alike (params.Rebound params') j j' := by
  obtain ⟨e, compiles, alike⟩ := compile_rebind r same h
  obtain rfl := Except.ok.inj (compiles.symm.trans h')
  have nulls : ∀ v w, params.Rebound params' v w → v.isNull = w.isNull :=
    fun _ _ related => r.isNull_eq related
  exact ⟨fun _ _ first second => Sql.text_eq_of_alike nulls alike first second,
    Document.agree_command alike⟩

theorem structure_of_rebinding_quoted_text :
    ∃ d d' q q' j j',
      compile {} "SELECT * FROM t WHERE a = :p LIMIT :n"
        (.ofList [("p", .int 1), ("n", .int 2)]) = .ok d ∧
      compile {} "SELECT * FROM t WHERE a = :p LIMIT :n"
        (.ofList [("n", .int 2), ("p", .str "' OR $1")]) = .ok d' ∧
      Sql.render d = .ok q ∧ Sql.render d' = .ok q' ∧ q.text = q'.text ∧
      Document.command d = .ok j ∧ Document.command d' = .ok j' ∧
      Document.Alike (Params.Rebound (.ofList [("p", .int 1), ("n", .int 2)])
        (.ofList [("n", .int 2), ("p", .str "' OR $1")])) j j' := by
  have compiles : compile {} "SELECT * FROM t WHERE a = :p LIMIT :n"
      (.ofList [("p", .int 1), ("n", .int 2)]) = .ok {
        kind := .select
        table := "t"
        filter := some (.comparison "a" .eq (.int 1))
        limit := some ⟨0, 2⟩ } := by
    decide +kernel
  have compiles' : compile {} "SELECT * FROM t WHERE a = :p LIMIT :n"
      (.ofList [("n", .int 2), ("p", .str "' OR $1")]) = .ok {
        kind := .select
        table := "t"
        filter := some (.comparison "a" .eq (.str "' OR $1"))
        limit := some ⟨0, 2⟩ } := by
    decide +kernel
  have lexed : Token.tokenize (Statement.normalize "SELECT * FROM t WHERE a = :p LIMIT :n") =
      .ok [.word "SELECT", .word "*", .word "FROM", .word "t", .word "WHERE", .word "a",
        .symbol "=", .word ":p", .word "LIMIT", .word ":n"] := by
    decide +kernel
  have counts : (Statement.places [.word "SELECT", .word "*", .word "FROM", .word "t",
      .word "WHERE", .word "a", .symbol "=", .word ":p", .word "LIMIT", .word ":n"]).filter
        (fun x => x.2 = .count) = [(.word ":n", .count)] := by
    decide +kernel
  have rebinds : Params.Rebinds (.ofList [("p", .int 1), ("n", .int 2)])
      (.ofList [("n", .int 2), ("p", .str "' OR $1")]) := by
    refine ⟨?_, by decide, by decide, ?_⟩
    · intro name
      rw [Bool.eq_iff_iff, OrderedMap.contains_ofList, OrderedMap.contains_ofList]
      simp [or_comm]
    · intro name
      have present : ∀ {m : Params}, (∀ v ∈ m.values, v ≠ .null) → m.get? name ≠ some .null :=
        fun apart found => apart _ (OrderedMap.mem_values_of_get? found) rfl
      exact iff_of_false (present (by decide)) (present (by decide))
  have same : ∀ tokens,
      Token.tokenize (Statement.normalize "SELECT * FROM t WHERE a = :p LIMIT :n") = .ok tokens →
        Params.SameCounts (.ofList [("p", .int 1), ("n", .int 2)])
          (.ofList [("n", .int 2), ("p", .str "' OR $1")]) tokens := by
    intro tokens tokenized word name stands placeholder
    obtain rfl := Except.ok.inj (lexed.symm.trans tokenized)
    have operand := (List.mem_filter (p := fun x => decide (x.2 = .count))).mpr ⟨stands, rfl⟩
    rw [counts, List.mem_singleton] at operand
    cases operand
    cases placeholder
    decide
  obtain ⟨texts, documents⟩ := structure_of_rebinding rebinds same compiles compiles'
  exact ⟨_, _, _, _, _, _, compiles, compiles', rfl, rfl, texts _ _ rfl rfl, rfl, rfl,
    documents _ _ rfl rfl⟩

end SqlBridge
