import SqlBridge.Proofs.Predicate.Tree
import SqlBridge.Proofs.Statement.Value
import SqlBridge.Proofs.Text.Basic
import SqlBridge.Proofs.Token.Lexeme
import SqlBridge.Statement.Condition

/-!
# The grammar of WHERE clauses

A chain is a term and then connectives with further terms; a term is a comparison, a LIKE condition
or a chain in parentheses one level deeper. The grammar says for each clause which predicate it is,
the fold of its terms, and which conditions stand in it from left to right. The reader accepts
exactly the clauses of the grammar, and stops at the keyword of another clause or at the end.
-/

namespace SqlBridge

namespace Logic

/-- The texts that spell a connective: its word in any case, or its symbol. -/
inductive Spells : Logic → String → Prop where
  | and {text : String} (same : Text.sameWord text "AND" = true) : Spells .and text
  | ampersands : Spells .and "&&"
  | or {text : String} (same : Text.sameWord text "OR" = true) : Spells .or text
  | bars : Spells .or "||"

theorem spells_and_iff {text : String} :
    Spells .and text ↔ Text.sameWord text "AND" = true ∨ text = "&&" := by
  constructor
  · intro h
    cases h with
    | and same => exact .inl same
    | ampersands => exact .inr rfl
  · rintro (same | rfl)
    · exact .and same
    · exact .ampersands

theorem spells_or_iff {text : String} :
    Spells .or text ↔ Text.sameWord text "OR" = true ∨ text = "||" := by
  constructor
  · intro h
    cases h with
    | or same => exact .inl same
    | bars => exact .inr rfl
  · rintro (same | rfl)
    · exact .or same
    · exact .bars

theorem spells_iff {l : Logic} {text : String} : l.Spells text ↔ Text.upper text ∈ l.spellings := by
  cases l with
  | and =>
    have marks : Text.upper text = "&&" ↔ text = "&&" := Text.upper_eq_iff (by simp)
    have word : Text.upper "AND" = "AND" := by decide
    rw [spells_and_iff, Text.sameWord_iff_upper_eq, word, ← marks]
    simp [spellings]
  | or =>
    have marks : Text.upper text = "||" ↔ text = "||" := Text.upper_eq_iff (by simp)
    have word : Text.upper "OR" = "OR" := by decide
    rw [spells_or_iff, Text.sameWord_iff_upper_eq, word, ← marks]
    simp [spellings]

theorem Spells.unique {k l : Logic} {text : String} (hk : k.Spells text) (hl : l.Spells text) :
    k = l := by
  have hk := spells_iff.mp hk
  have hl := spells_iff.mp hl
  cases k <;> cases l <;>
    simp only [spellings, List.mem_cons, List.not_mem_nil, or_false] at hk hl ⊢
  all_goals rcases hk with hk | hk <;> simp [hk] at hl

theorem ofSpelling?_eq_some_iff {text : String} {l : Logic} :
    ofSpelling? text = some l ↔ l.Spells text := by
  have any_iff : ∀ k : Logic, (k.spellings.any fun w => Text.sameWord w text) = true ↔
      k.Spells text := by
    intro k
    have upper_spellings : k.spellings.map Text.upper = k.spellings := by cases k <;> decide
    have mem_iff : Text.upper text ∈ k.spellings ↔
        ∃ w ∈ k.spellings, Text.upper w = Text.upper text := by
      rw [← List.mem_map, upper_spellings]
    simp only [spells_iff, mem_iff, List.any_eq_true, Text.sameWord_iff_upper_eq]
  constructor
  · intro h
    exact (any_iff l).mp (by simpa using List.find?_some h)
  · intro h
    cases found : ofSpelling? text with
    | none =>
      have := List.find?_eq_none.mp found l (by cases l <;> decide)
      exact absurd ((any_iff l).mpr h) this
    | some k =>
      have hk : k.Spells text := (any_iff k).mp (by simpa using List.find?_some found)
      rw [hk.unique h]

end Logic

namespace Condition

inductive Connects (l : Logic) : Token → Prop where
  | word {text : String} (spelt : l.Spells text) : Connects l (.word text)
  | symbol {text : String} (spelt : l.Spells text) : Connects l (.symbol text)

/-- The tokens that name a field: quoted texts, and the words that connect nothing. -/
inductive FieldOf : Token → String → Prop where
  | quoted {text : String} : FieldOf (.quoted text) text
  | identifier {name : String} : FieldOf (.identifier name) name
  | word {text : String} (plain : ∀ l, ¬ Connects l (.word text)) : FieldOf (.word text) text

/-- The text of a pattern: a string as it is, and any other value as it is displayed. -/
def patternOf : Value → String
  | .str s => s
  | value => value.display

inductive ConditionOf (ctx : Context) : List Token → Predicate → Prop where
  | comparison {t u : Token} {field text : String} {o : Operator} {v : Value}
      (named : FieldOf t field) (denoted : text ∈ o.symbols) (given : ctx.params.ValueOf u v) :
      ConditionOf ctx [t, .symbol text, u] (.comparison field o v)
  | pattern {t k u : Token} {field : String} {v : Value} (named : FieldOf t field)
      (like : k.isKeyword "LIKE" = true) (given : ctx.params.ValueOf u v) (present : v ≠ .null) :
      ConditionOf ctx [t, k, u]
        (.pattern field (Like.toRegex (patternOf v)) ctx.settings.caseInsensitiveLike)

mutual

/-- Terms inside `d` parentheses, with their predicate and their conditions. -/
inductive TermAt (ctx : Context) : Nat → List Token → Predicate → List Predicate → Prop where
  | condition {d : Nat} {p : List Token} {x : Predicate} (single : ConditionOf ctx p x) :
      TermAt ctx d p x [x]
  | enclosed {d : Nat} {p : List Token} {x : Predicate} {cs : List Predicate}
      (room : d + 1 ≤ ctx.settings.maxPredicateDepth.toNat) (inner : ChainAt ctx (d + 1) p x cs) :
      TermAt ctx d (.leftParen :: (p ++ [.rightParen])) x cs

/-- The terms after the first one, each with its connective. -/
inductive TailAt (ctx : Context) :
    Nat → List Token → List (Logic × Predicate) → List Predicate → Prop where
  | nil {d : Nat} : TailAt ctx d [] [] []
  | cons {d : Nat} {t : Token} {l : Logic} {p q : List Token} {x : Predicate}
      {terms : List (Logic × Predicate)} {cs cs' : List Predicate} (connects : Connects l t)
      (term : TermAt ctx d p x cs) (others : TailAt ctx d q terms cs') :
      TailAt ctx d (t :: (p ++ q)) ((l, x) :: terms) (cs ++ cs')

/-- Chains inside `d` parentheses: their predicate is the fold of their terms. -/
inductive ChainAt (ctx : Context) : Nat → List Token → Predicate → List Predicate → Prop where
  | fold {d : Nat} {p q : List Token} {x : Predicate} {terms : List (Logic × Predicate)}
      {cs cs' : List Predicate} (first : TermAt ctx d p x cs) (others : TailAt ctx d q terms cs') :
      ChainAt ctx d (p ++ q) (.ofChain x terms) (cs ++ cs')

end

/-- What may follow a WHERE clause: nothing, or the keyword of a later clause in any case. -/
inductive EndsClause : List Token → Prop where
  | nil : EndsClause []
  | keyword {text k : String} {rest : List Token} (later : k ∈ ["ORDER", "LIMIT", "GROUP"])
      (same : Text.sameWord text k = true) : EndsClause (.word text :: rest)

/-! ### The tokens of the grammar -/

theorem connective?_eq_some_iff {t : Token} {l : Logic} :
    connective? t = some l ↔ Connects l t := by
  constructor
  · intro h
    cases t with
    | word text => exact .word (Logic.ofSpelling?_eq_some_iff.mp h)
    | symbol text => exact .symbol (Logic.ofSpelling?_eq_some_iff.mp h)
    | _ => cases h
  · rintro (spelt | spelt) <;> exact Logic.ofSpelling?_eq_some_iff.mpr spelt

theorem field?_eq_some_iff {t : Token} {field : String} :
    field? t = some field ↔ FieldOf t field := by
  constructor
  · intro h
    cases t with
    | word text =>
      simp only [field?, Option.ite_none_left_eq_some, Option.some.injEq] at h
      obtain ⟨plain, rfl⟩ := h
      refine .word fun l connects => plain ?_
      have spelt : Logic.ofSpelling? text = some l := connective?_eq_some_iff.mpr connects
      rw [spelt, Option.isSome_some]
    | identifier name => cases h; exact .identifier
    | quoted text => cases h; exact .quoted
    | _ => cases h
  · intro h
    cases h with
    | quoted => rfl
    | identifier => rfl
    | word plain =>
      have none : Logic.ofSpelling? field = none := by
        cases spelt : Logic.ofSpelling? field with
        | none => rfl
        | some l => exact absurd (.word (Logic.ofSpelling?_eq_some_iff.mp spelt)) (plain l)
      simp [field?, none]

theorem pattern?_eq_some_iff {v : Value} {text : String} :
    pattern? v = some text ↔ v ≠ .null ∧ text = patternOf v := by
  cases v <;> simp [pattern?, patternOf, eq_comm]

theorem FieldOf.ne_paren {t : Token} {field : String} (h : FieldOf t field) :
    t ≠ .leftParen ∧ t ≠ .rightParen := by
  cases h <;> simp

theorem Connects.ne_paren {l : Logic} {t : Token} (h : Connects l t) :
    t ≠ .leftParen ∧ t ≠ .rightParen := by
  cases h <;> simp

/-- A connective is no keyword of a later clause and no parenthesis. -/
theorem Connects.goes_on {l : Logic} {t : Token} (h : Connects l t) :
    t ≠ .rightParen ∧ isBoundary t = false := by
  cases h with
  | symbol => exact ⟨by simp, rfl⟩
  | @word text spelt =>
    refine ⟨by simp, Bool.eq_false_iff.mpr fun boundary => ?_⟩
    obtain ⟨k, later, same⟩ := List.any_eq_true.mp boundary
    have spelt := Logic.spells_iff.mp spelt
    rw [Text.sameWord_iff_upper_eq.mp same] at spelt
    simp only [List.mem_cons, List.not_mem_nil, or_false] at later
    rcases later with rfl | rfl | rfl <;> cases l <;> revert spelt <;> decide

theorem afterTerm_eq_some_iff {t : Token} {l : Logic} :
    afterTerm t = .ok (some l) ↔ Connects l t := by
  constructor
  · intro h
    simp only [afterTerm] at h
    split at h
    · cases h
    · split at h
      · next hl => cases h; exact connective?_eq_some_iff.mp hl
      · cases h
  · intro h
    obtain ⟨inside, inner⟩ := h.goes_on
    simp [afterTerm, inside, inner, connective?_eq_some_iff.mpr h]

theorem afterTerm_eq_none_iff {t : Token} :
    afterTerm t = .ok none ↔ t = .rightParen ∨ isBoundary t = true := by
  constructor
  · intro h
    simp only [afterTerm] at h
    split at h
    · assumption
    · split at h <;> cases h
  · intro h
    rw [afterTerm, if_pos h]

theorem endsClause_iff {rest : List Token} :
    EndsClause rest ↔ ∀ t ∈ rest.head?, isBoundary t = true := by
  constructor
  · intro h
    cases h with
    | nil => simp
    | keyword later same =>
      simp only [List.head?_cons, Option.mem_def, Option.some.injEq, forall_eq']
      exact List.any_eq_true.mpr ⟨_, later, same⟩
  · intro h
    rcases rest with _ | ⟨t, rest⟩
    · exact .nil
    · obtain ⟨k, later, same⟩ := List.any_eq_true.mp (h t rfl)
      cases t with
      | word text => exact .keyword later same
      | _ => cases same

/-! ### Reading terms and chains -/

open Reader

variable {ctx : Context} {p rest : List Token} {x : Predicate}

theorem reads_afterField {field : String} :
    (afterField ctx field).Reads p x rest ↔
      (∃ text o u v, p = [.symbol text, u] ∧ text ∈ o.symbols ∧ ctx.params.ValueOf u v ∧
        x = .comparison field o v) ∨
      (∃ k u v, p = [k, u] ∧ k.isKeyword "LIKE" = true ∧ ctx.params.ValueOf u v ∧ v ≠ .null ∧
        x = .pattern field (Like.toRegex (patternOf v)) ctx.settings.caseInsensitiveLike) := by
  rw [afterField, reads_next_bind]
  constructor
  · rintro (⟨t, s, rfl, h⟩ | ⟨_, _, h⟩)
    · split at h
      · simp at *
      · next text heq =>
        obtain rfl := Option.some.inj heq
        split at h
        · exact False.elim (not_reads_fail h)
        · next o found =>
          obtain ⟨u, s, v, rfl, given, h⟩ := Context.reads_value_bind.mp h
          obtain ⟨rfl, rfl⟩ := reads_pure.mp h
          exact .inl ⟨text, o, u, v, rfl, Operator.ofSymbol?_eq_some_iff.mp found, given, rfl⟩
      · next token _ heq =>
        obtain rfl := Option.some.inj heq
        rw [reads_ite] at h
        obtain ⟨like, h⟩ | ⟨_, h⟩ := h
        · obtain ⟨u, s, v, rfl, given, h⟩ := Context.reads_value_bind.mp h
          split at h
          · next text found =>
            obtain ⟨rfl, rfl⟩ := reads_pure.mp h
            obtain ⟨present, rfl⟩ := pattern?_eq_some_iff.mp found
            exact .inr ⟨t, u, v, rfl, like, given, present, rfl⟩
          · exact False.elim (not_reads_fail h)
        · exact False.elim (not_reads_fail h)
    · exact False.elim (not_reads_fail h)
  · rintro (⟨text, o, u, v, rfl, denoted, given, rfl⟩ | ⟨k, u, v, rfl, like, given, present, rfl⟩)
    · refine .inl ⟨_, _, rfl, ?_⟩
      simp only [Operator.ofSymbol?_eq_some_iff.mpr denoted]
      exact Context.reads_value_bind.mpr ⟨u, [], v, rfl, given, reads_pure.mpr ⟨rfl, rfl⟩⟩
    · refine .inl ⟨_, _, rfl, ?_⟩
      cases k with
      | word text =>
        simp only [like, if_true]
        refine Context.reads_value_bind.mpr ⟨u, [], v, rfl, given, ?_⟩
        rw [pattern?_eq_some_iff.mpr ⟨present, rfl⟩]
        exact reads_pure.mpr ⟨rfl, rfl⟩
      | _ => cases like

theorem reads_condition {t : Token} :
    (condition ctx (some t)).Reads p x rest ↔ ConditionOf ctx (t :: p) x := by
  simp only [condition]
  constructor
  · intro h
    split at h
    · next field found =>
      have named := field?_eq_some_iff.mp found
      rcases reads_afterField.mp h with
        ⟨text, o, u, v, rfl, denoted, given, rfl⟩ | ⟨k, u, v, rfl, like, given, present, rfl⟩
      · exact .comparison named denoted given
      · exact .pattern named like given present
    · exact False.elim (not_reads_fail h)
  · intro h
    cases h with
    | comparison named denoted given =>
      rw [field?_eq_some_iff.mpr named]
      exact reads_afterField.mpr (.inl ⟨_, _, _, _, rfl, denoted, given, rfl⟩)
    | pattern named like given present =>
      rw [field?_eq_some_iff.mpr named]
      exact reads_afterField.mpr (.inr ⟨_, _, _, rfl, like, given, present, rfl⟩)

theorem ConditionOf.ne_nil (h : ConditionOf ctx p x) : p ≠ [] := by
  cases h <;> simp

/-- A condition starts with a field, which is no parenthesis. -/
theorem ConditionOf.head_ne {t : Token} (h : ConditionOf ctx (t :: p) x) :
    t ≠ .leftParen ∧ t ≠ .rightParen := by
  have named : ∃ field, FieldOf t field := by cases h <;> exact ⟨_, ‹_›⟩
  obtain ⟨field, named⟩ := named
  exact named.ne_paren

theorem reads_term_zero : (term ctx 0).Reads p x rest ↔ ConditionOf ctx p x := by
  rw [term, reads_next_bind]
  constructor
  · rintro (⟨t, s, rfl, h⟩ | ⟨_, _, h⟩)
    · split at h
      · exact False.elim (not_reads_fail h)
      · exact reads_condition.mp h
    · exact False.elim (not_reads_fail h)
  · intro h
    rcases p with _ | ⟨t, p⟩
    · exact absurd rfl h.ne_nil
    · refine .inl ⟨t, p, rfl, ?_⟩
      split
      · next heq => exact absurd (Option.some.inj heq) h.head_ne.1
      · exact reads_condition.mpr h

theorem reads_term_succ {room : Nat} :
    (term ctx (room + 1)).Reads p x rest ↔
      ConditionOf ctx p x ∨
        ∃ q, p = .leftParen :: (q ++ [.rightParen]) ∧
          (q ++ [.rightParen]).head? ≠ some .rightParen ∧
          (chain (term ctx room)).Reads q x (.rightParen :: rest) := by
  rw [term, reads_next_bind]
  constructor
  · rintro (⟨t, s, rfl, h⟩ | ⟨_, _, h⟩)
    · split at h
      · next heq =>
        obtain rfl := Option.some.inj heq
        obtain ⟨_, h⟩ | ⟨filled, h⟩ := reads_at?_bind.mp h
        · exact False.elim (not_reads_fail h)
        · obtain ⟨q, s, y, rfl, inner, h⟩ := reads_bind.mp h
          obtain ⟨r, rfl, h⟩ | ⟨_, h⟩ := reads_eat_bind.mp h
          · obtain ⟨rfl, rfl⟩ := reads_pure.mp h
            refine .inr ⟨q, rfl, ?_, inner⟩
            cases q <;> simp_all
          · exact False.elim (not_reads_fail h)
      · exact .inl (reads_condition.mp h)
    · exact False.elim (not_reads_fail h)
  · rintro (h | ⟨q, rfl, filled, inner⟩)
    · rcases p with _ | ⟨t, p⟩
      · exact absurd rfl h.ne_nil
      · refine .inl ⟨t, p, rfl, ?_⟩
        split
        · next heq => exact absurd (Option.some.inj heq) h.head_ne.1
        · exact reads_condition.mpr h
    · refine .inl ⟨_, _, rfl, reads_at?_bind.mpr (.inr ⟨?_, reads_bind.mpr ?_⟩)⟩
      · cases q <;> simp_all
      · refine ⟨q, [.rightParen], x, rfl, inner, reads_eat_bind.mpr (.inl ⟨[], rfl, ?_⟩)⟩
        exact reads_pure.mpr ⟨rfl, rfl⟩

/-- A chain is its first term and the rounds of its loop. -/
theorem reads_chain {r : Reader Predicate} :
    (chain r).Reads p x rest ↔
      ∃ q s first terms, p = q ++ s ∧ r.Reads q first (s ++ rest) ∧
        Rounds afterTerm (fun before logic => do return before ++ [(logic, ← r)]) rest [] s terms ∧
        x = .ofChain first terms := by
  rw [chain, reads_bind]
  constructor
  · rintro ⟨q, s, first, rfl, head, h⟩
    obtain ⟨s, r, terms, rfl, rounds, h⟩ := reads_bind.mp h
    obtain ⟨rfl, rfl⟩ := reads_pure.mp h
    rw [List.append_nil] at *
    exact ⟨q, s, first, terms, rfl, head, reads_loop.mp rounds, rfl⟩
  · rintro ⟨q, s, first, terms, rfl, head, rounds, rfl⟩
    refine ⟨q, s, first, rfl, head, reads_bind.mpr ⟨s, [], terms, by simp, ?_, ?_⟩⟩
    · exact reads_loop.mpr rounds
    · exact reads_pure.mpr ⟨rfl, rfl⟩

/-- What must follow a chain: nothing, a closing parenthesis or a later clause. -/
def StopsChain (rest : List Token) : Prop :=
  ∀ t ∈ rest.head?, t = .rightParen ∨ isBoundary t = true

theorem TermAt.head_ne {d : Nat} {t : Token} {cs : List Predicate}
    (h : TermAt ctx d (t :: p) x cs) : t ≠ .rightParen := by
  cases h with
  | condition single => exact single.head_ne.2
  | enclosed => simp

theorem TermAt.ne_nil {d : Nat} {cs : List Predicate} (h : TermAt ctx d p x cs) : p ≠ [] := by
  cases h with
  | condition single => exact single.ne_nil
  | enclosed => simp

/-- A single term is a chain. -/
theorem TermAt.chain {d : Nat} {cs : List Predicate} (h : TermAt ctx d p x cs) :
    ChainAt ctx d p x cs := by
  have chain : ChainAt ctx d (p ++ []) (.ofChain x []) (cs ++ []) := .fold h .nil
  rwa [List.append_nil, List.append_nil] at chain

theorem ChainAt.head_ne {d : Nat} {cs : List Predicate} (h : ChainAt ctx d p x cs) :
    (p ++ [Token.rightParen]).head? ≠ some .rightParen := by
  cases h with
  | @fold _ p q _ _ _ _ first others =>
    rcases p with _ | ⟨t, p⟩
    · exact absurd rfl first.ne_nil
    · simpa using first.head_ne

theorem afterTerm_stops_iff :
    (∀ t ∈ rest.head?, afterTerm t = .ok none) ↔ StopsChain rest := by
  simp only [afterTerm_eq_none_iff, StopsChain]

/-- The rounds of the loop are a tail, if what is read in them are terms. -/
theorem tailAt_of_rounds {r : Reader Predicate} {d : Nat}
    {before after : List (Logic × Predicate)}
    (reads : ∀ {p x rest}, r.Reads p x rest → ∃ cs, TermAt ctx d p x cs)
    (rounds : Rounds afterTerm (fun before logic => do return before ++ [(logic, ← r)]) rest
      before p after) :
    StopsChain rest ∧ ∃ terms cs, after = before ++ terms ∧ TailAt ctx d p terms cs := by
  induction rounds with
  | stop ended => exact ⟨afterTerm_stops_iff.mp ended, [], [], (List.append_nil _).symm, .nil⟩
  | round on first _ ih =>
    obtain ⟨stops, terms, cs', rfl, others⟩ := ih
    obtain ⟨q, s, y, rfl, head, h⟩ := reads_bind.mp first
    obtain ⟨rfl, rfl⟩ := reads_pure.mp h
    obtain ⟨cs, term⟩ := reads head
    rw [List.append_nil]
    exact ⟨stops, (_, y) :: terms, cs ++ cs', by simp,
      .cons (afterTerm_eq_some_iff.mp on) term others⟩

theorem TailAt.rounds {r : Reader Predicate} {d : Nat}
    (reads : ∀ {p x cs}, TermAt ctx d p x cs → ∀ rest, r.Reads p x rest)
    (stops : StopsChain rest) : ∀ {p terms cs}, TailAt ctx d p terms cs → ∀ before,
    Rounds afterTerm (fun before logic => do return before ++ [(logic, ← r)]) rest before p
      (before ++ terms)
  | _, _, _, .nil, before => by
    rw [List.append_nil]
    exact .stop (afterTerm_stops_iff.mpr stops)
  | _, _, _, .cons (t := t) (l := l) (p := p) (q := q) (x := x) connects term others, before => by
    have tail := TailAt.rounds reads stops others (before ++ [(l, x)])
    rw [List.append_assoc, List.singleton_append] at tail
    refine .round (afterTerm_eq_some_iff.mpr connects) (reads_bind.mpr ?_) tail
    exact ⟨p, [], x, by simp, reads term _, reads_pure.mpr ⟨rfl, rfl⟩⟩

/-- If what is read are the terms of a depth, the chain reads the chains of that depth. -/
theorem reads_chain_iff {r : Reader Predicate} {d : Nat}
    (reads : ∀ {p x rest}, r.Reads p x rest ↔ ∃ cs, TermAt ctx d p x cs) :
    (chain r).Reads p x rest ↔ StopsChain rest ∧ ∃ cs, ChainAt ctx d p x cs := by
  rw [reads_chain]
  constructor
  · rintro ⟨q, s, first, terms, rfl, head, rounds, rfl⟩
    obtain ⟨cs, head⟩ := reads.mp head
    obtain ⟨stops, terms, cs', rfl, others⟩ := tailAt_of_rounds reads.mp rounds
    exact ⟨stops, cs ++ cs', .fold head others⟩
  · rintro ⟨stops, cs, h⟩
    cases h with
    | fold first others =>
      refine ⟨_, _, _, _, rfl, reads.mpr ⟨_, first⟩, ?_, rfl⟩
      exact others.rounds (fun term rest => reads.mpr ⟨_, term⟩) stops []

/-- With room for the remaining depth, what is read are the terms of a depth. -/
theorem reads_term {room d : Nat} (h : d + room = ctx.settings.maxPredicateDepth.toNat) :
    (term ctx room).Reads p x rest ↔ ∃ cs, TermAt ctx d p x cs := by
  induction room generalizing d p x rest with
  | zero =>
    rw [reads_term_zero]
    constructor
    · intro single
      exact ⟨[x], .condition single⟩
    · rintro ⟨cs, term⟩
      cases term with
      | condition single => exact single
      | enclosed room => omega
  | succ room ih =>
    have inside : d + 1 + room = ctx.settings.maxPredicateDepth.toNat := by omega
    rw [reads_term_succ]
    constructor
    · rintro (single | ⟨q, rfl, _, inner⟩)
      · exact ⟨[x], .condition single⟩
      · obtain ⟨_, cs, inner⟩ := (reads_chain_iff (ih inside)).mp inner
        exact ⟨cs, .enclosed (by omega) inner⟩
    · rintro ⟨cs, term⟩
      cases term with
      | condition single => exact .inl single
      | enclosed room inner =>
        refine .inr ⟨_, rfl, inner.head_ne, (reads_chain_iff (ih inside)).mpr ⟨?_, cs, inner⟩⟩
        intro t ht
        exact .inl (Option.some.inj ht).symm

/-- What is read of a WHERE clause is a chain outside parentheses, up to a later clause. -/
theorem reads_predicate :
    (predicate ctx).Reads p x rest ↔ EndsClause rest ∧ ∃ cs, ChainAt ctx 0 p x cs := by
  have chains : ∀ {p x rest},
      (chain (term ctx ctx.settings.maxPredicateDepth.toNat)).Reads p x rest ↔
        StopsChain rest ∧ ∃ cs, ChainAt ctx 0 p x cs :=
    reads_chain_iff (reads_term (Nat.zero_add _))
  rw [predicate, reads_bind]
  constructor
  · rintro ⟨q, s, y, rfl, head, h⟩
    obtain ⟨_, h⟩ | ⟨apart, h⟩ := reads_at?_bind.mp h
    · exact False.elim (not_reads_fail h)
    · obtain ⟨rfl, rfl⟩ := reads_pure.mp h
      obtain ⟨stops, h⟩ := chains.mp head
      rw [List.append_nil]
      refine ⟨endsClause_iff.mpr fun t ht => ?_, h⟩
      rcases stops t ht with rfl | boundary
      · exact absurd ht apart
      · exact boundary
  · rintro ⟨ends, h⟩
    have boundary := endsClause_iff.mp ends
    refine ⟨p, [], x, by simp, chains.mpr ⟨fun t ht => .inr (boundary t ht), h⟩, ?_⟩
    refine reads_at?_bind.mpr (.inr ⟨fun closing => ?_, reads_pure.mpr ⟨rfl, rfl⟩⟩)
    exact absurd (boundary _ closing) (by decide)

/-! ### Induction over chains -/

/-- A property of chains, with properties `T` of terms and `Q` of tails, holds of every chain if
each form of the grammar hands it on from its parts. -/
@[elab_as_elim]
theorem ChainAt.induct {T : Nat → List Token → Predicate → List Predicate → Prop}
    {Q : Nat → List Token → List (Logic × Predicate) → List Predicate → Prop}
    {motive : ∀ d p x cs, ChainAt ctx d p x cs → Prop}
    (condition : ∀ {d p x}, ConditionOf ctx p x → T d p x [x])
    (enclosed : ∀ {d p x cs}, d + 1 ≤ ctx.settings.maxPredicateDepth.toNat →
      (inner : ChainAt ctx (d + 1) p x cs) → motive (d + 1) p x cs inner →
      T d (.leftParen :: (p ++ [.rightParen])) x cs)
    (nil : ∀ {d}, Q d [] [] [])
    (cons : ∀ {d t l p q x terms cs cs'}, Connects l t → TermAt ctx d p x cs →
      T d p x cs → Q d q terms cs' → Q d (t :: (p ++ q)) ((l, x) :: terms) (cs ++ cs'))
    (fold : ∀ {d p q x terms cs cs'}, (first : TermAt ctx d p x cs) →
      (others : TailAt ctx d q terms cs') → T d p x cs → Q d q terms cs' →
      motive d (p ++ q) (.ofChain x terms) (cs ++ cs') (.fold first others))
    {d : Nat} {p : List Token} {x : Predicate} {cs : List Predicate} (h : ChainAt ctx d p x cs) :
    motive d p x cs h :=
  @ChainAt.rec ctx (fun d p x cs _ => T d p x cs) (fun d q terms cs _ => Q d q terms cs) motive
    condition enclosed nil (fun connects term _ => cons connects term) fold d p x cs h

/-! ### The predicate of a clause -/

variable {d : Nat} {cs : List Predicate}

theorem ChainAt.leaves_eq (h : ChainAt ctx d p x cs) : x.leaves = cs := by
  induction h using ChainAt.induct (T := fun _ _ x cs => x.leaves = cs)
    (Q := fun _ _ terms cs => terms.flatMap (fun t => t.2.leaves) = cs) with
  | condition single => cases single <;> simp
  | enclosed _ _ inner => exact inner
  | nil => rfl
  | cons _ _ term others => rw [List.flatMap_cons, term, others]
  | fold _ _ first others => rw [Predicate.leaves_ofChain, first, others]

theorem ConditionOf.grouped (h : ConditionOf ctx p x) : x.Grouped := by
  cases h with
  | comparison => exact .comparison
  | pattern => exact .pattern

theorem ChainAt.grouped (h : ChainAt ctx d p x cs) : x.Grouped := by
  induction h using ChainAt.induct (T := fun _ _ x _ => x.Grouped)
    (Q := fun _ _ terms _ => ∀ t ∈ terms, t.2.Grouped) with
  | condition single => exact single.grouped
  | enclosed _ _ inner => exact inner
  | nil t ht => cases ht
  | cons _ _ term others t ht =>
    rcases List.mem_cons.mp ht with rfl | later
    · exact term
    · exact others t later
  | fold _ _ first others => exact Predicate.grouped_ofChain first others

theorem ChainAt.conditions (h : ChainAt ctx d p x cs) : ∀ c ∈ cs, ∃ q, ConditionOf ctx q c := by
  induction h using ChainAt.induct (T := fun _ _ _ cs => ∀ c ∈ cs, ∃ q, ConditionOf ctx q c)
    (Q := fun _ _ _ cs => ∀ c ∈ cs, ∃ q, ConditionOf ctx q c) with
  | condition single c hc => exact ⟨_, List.mem_singleton.mp hc ▸ single⟩
  | enclosed _ _ inner c hc => exact inner c hc
  | nil c hc => cases hc
  | cons _ _ term others c hc => exact (List.mem_append.mp hc).elim (term c) (others c)
  | fold _ _ first others => exact fun c hc => (List.mem_append.mp hc).elim (first c) (others c)

theorem ConditionOf.no_semicolon (h : ConditionOf ctx p x) : .semicolon ∉ p := by
  have value_ne : ∀ {u v}, ctx.params.ValueOf u v → u ≠ .semicolon := by
    rintro _ v given rfl
    cases given.isValue
  have field_ne : ∀ {t field}, FieldOf t field → t ≠ .semicolon := by
    rintro _ field named rfl
    cases named
  cases h with
  | comparison named _ given => simp [(field_ne named).symm, (value_ne given).symm]
  | @pattern t k u _ _ named like given _ =>
    have apart : k ≠ .semicolon := by
      rintro rfl
      cases like
    simp [(field_ne named).symm, apart.symm, (value_ne given).symm]

theorem ChainAt.no_semicolon (h : ChainAt ctx d p x cs) : .semicolon ∉ p := by
  induction h using ChainAt.induct (T := fun _ p _ _ => .semicolon ∉ p)
    (Q := fun _ p _ _ => .semicolon ∉ p) with
  | condition single => exact single.no_semicolon
  | enclosed _ _ inner => simpa using inner
  | nil => simp
  | cons connects _ term others => cases connects <;> simp [term, others]
  | fold _ _ first others => simp [first, others]

end Condition

end SqlBridge
