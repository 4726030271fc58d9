import SqlBridge.Proofs.Condition.Grammar

/-!
# Clauses by the kinds of their tokens

The reader tells connectives and fields by what a token says, whether it is a word or a symbol. A
grammar may go by the kind of the token instead: the words AND and OR and the symbols && and ||
connect, and every other word names a field. In a text a symbol holds operator characters only and a
word none, so there the two grammars derive the same clauses. Lists of tokens that no text has set
them apart: a word && names no field.
-/

namespace SqlBridge

namespace Condition

/-- The connectives by their kind. -/
def IsConnective (t : Token) : Prop :=
  t.isKeyword "AND" = true ∨ t.isKeyword "OR" = true ∨ t = .symbol "&&" ∨ t = .symbol "||"

/-- The fields by their kind. -/
inductive IsField : Token → Prop where
  | quoted {text : String} : IsField (.quoted text)
  | identifier {name : String} : IsField (.identifier name)
  | word {text : String} (not_and : Text.sameWord text "AND" = false)
      (not_or : Text.sameWord text "OR" = false) : IsField (.word text)

mutual

/-- Terms inside `d` parentheses, by the kinds of their tokens. -/
inductive TermOfKinds (ctx : Context) : Nat → List Token → Prop where
  | comparison {d : Nat} {t u : Token} {text : String} {o : Operator} {v : Value}
      (named : IsField t) (denoted : text ∈ o.symbols) (given : ctx.params.ValueOf u v) :
      TermOfKinds ctx d [t, .symbol text, u]
  | pattern {d : Nat} {t k u : Token} {v : Value} (named : IsField t)
      (like : k.isKeyword "LIKE" = true) (given : ctx.params.ValueOf u v) (present : v ≠ .null) :
      TermOfKinds ctx d [t, k, u]
  | enclosed {d : Nat} {p : List Token} (room : d + 1 ≤ ctx.settings.maxPredicateDepth.toNat)
      (inner : ChainOfKinds ctx (d + 1) p) :
      TermOfKinds ctx d (.leftParen :: (p ++ [.rightParen]))

/-- The terms after the first one, by the kinds of their tokens. -/
inductive TailOfKinds (ctx : Context) : Nat → List Token → Prop where
  | nil {d : Nat} : TailOfKinds ctx d []
  | cons {d : Nat} {t : Token} {p q : List Token} (connects : IsConnective t)
      (term : TermOfKinds ctx d p) (others : TailOfKinds ctx d q) :
      TailOfKinds ctx d (t :: (p ++ q))

/-- Chains inside `d` parentheses, by the kinds of their tokens. -/
inductive ChainOfKinds (ctx : Context) : Nat → List Token → Prop where
  | chain {d : Nat} {p q : List Token} (first : TermOfKinds ctx d p)
      (others : TailOfKinds ctx d q) : ChainOfKinds ctx d (p ++ q)

end

/-! ### The tokens of a text -/

/-- Operator characters are no letters, so a symbol of a text is the same word as itself only. -/
theorem eq_of_sameWord_symbol {text k : String} (h : (Token.symbol text).IsLexeme)
    (same : Text.sameWord text k = true) : k = text := by
  refine String.toList_inj.mp (Text.eq_of_map_toUpper_eq ?_ fun c hc => ?_)
  · exact (Text.sameWord_iff_map_eq.mp same).symm
  · have operator := h.2 c hc
    simp only [Token.isSymbolChar, Bool.or_eq_true, decide_eq_true_eq] at operator
    rcases operator with ((((rfl | rfl) | rfl) | rfl) | rfl) | rfl <;> decide

/-- In a text a word connects by the one spelling of a connective, and a symbol by the other. -/
theorem connects_iff_of_spells {l : Logic} {name marks : String} {t : Token} (h : t.IsLexeme)
    (spells : ∀ {text}, l.Spells text ↔ Text.sameWord text name = true ∨ text = marks)
    (no_word : ¬(Token.word marks).IsLexeme) (no_symbol : ¬(Token.symbol name).IsLexeme) :
    Connects l t ↔ t.isKeyword name = true ∨ t = .symbol marks := by
  constructor
  · rintro (spelt | spelt)
    · rcases spells.mp spelt with same | rfl
      · exact .inl same
      · exact absurd h no_word
    · rcases spells.mp spelt with same | rfl
      · exact absurd (eq_of_sameWord_symbol h same ▸ h) no_symbol
      · exact .inr rfl
  · rintro (same | rfl)
    · cases t with
      | word text => exact .word (spells.mpr (.inl same))
      | _ => cases same
    · exact .symbol (spells.mpr (.inr rfl))

theorem connects_iff_of_isLexeme {t : Token} (h : t.IsLexeme) :
    (Connects .and t ↔ t.isKeyword "AND" = true ∨ t = .symbol "&&") ∧
      (Connects .or t ↔ t.isKeyword "OR" = true ∨ t = .symbol "||") :=
  ⟨connects_iff_of_spells h Logic.spells_and_iff (by decide) (by decide),
    connects_iff_of_spells h Logic.spells_or_iff (by decide) (by decide)⟩

theorem exists_connects_iff {t : Token} (h : t.IsLexeme) :
    (∃ l, Connects l t) ↔ IsConnective t := by
  obtain ⟨and_iff, or_iff⟩ := connects_iff_of_isLexeme h
  constructor
  · rintro ⟨_ | _, connects⟩
    · rcases and_iff.mp connects with word | symbol
      · exact .inl word
      · exact .inr (.inr (.inl symbol))
    · rcases or_iff.mp connects with word | symbol
      · exact .inr (.inl word)
      · exact .inr (.inr (.inr symbol))
  · rintro (word | word | symbol | symbol)
    · exact ⟨.and, and_iff.mpr (.inl word)⟩
    · exact ⟨.or, or_iff.mpr (.inl word)⟩
    · exact ⟨.and, and_iff.mpr (.inr symbol)⟩
    · exact ⟨.or, or_iff.mpr (.inr symbol)⟩

theorem exists_fieldOf_iff {t : Token} (h : t.IsLexeme) :
    (∃ field, FieldOf t field) ↔ IsField t := by
  constructor
  · rintro ⟨field, named⟩
    cases named with
    | quoted => exact .quoted
    | identifier => exact .identifier
    | word plain =>
      have not_and := fun same => plain .and (.word (.and same))
      have not_or := fun same => plain .or (.word (.or same))
      exact .word (Bool.eq_false_iff.mpr not_and) (Bool.eq_false_iff.mpr not_or)
  · intro named
    cases named with
    | quoted => exact ⟨_, .quoted⟩
    | identifier => exact ⟨_, .identifier⟩
    | @word text not_and not_or =>
      refine ⟨text, .word fun l connects => ?_⟩
      rcases (exists_connects_iff h).mp ⟨l, connects⟩ with same | same | symbol | symbol
      · exact Bool.eq_false_iff.mp not_and same
      · exact Bool.eq_false_iff.mp not_or same
      · cases symbol
      · cases symbol

/-! ### The clauses of a text -/

variable {ctx : Context} {d : Nat} {p : List Token}

theorem ConditionOf.ofKinds {x : Predicate} (h : ConditionOf ctx p x)
    (lexemes : ∀ t ∈ p, t.IsLexeme) : TermOfKinds ctx d p := by
  have field : ∀ {t name}, FieldOf t name → t ∈ p → IsField t :=
    fun named listed => (exists_fieldOf_iff (lexemes _ listed)).mp ⟨_, named⟩
  cases h with
  | comparison named denoted given =>
    exact .comparison (field named (List.mem_cons_self ..)) denoted given
  | pattern named like given present =>
    exact .pattern (field named (List.mem_cons_self ..)) like given present

theorem ChainAt.ofKinds {x : Predicate} {cs : List Predicate} (h : ChainAt ctx d p x cs)
    (lexemes : ∀ t ∈ p, t.IsLexeme) : ChainOfKinds ctx d p := by
  induction h using ChainAt.induct
    (T := fun d p _ _ => (∀ t ∈ p, t.IsLexeme) → TermOfKinds ctx d p)
    (Q := fun d p _ _ => (∀ t ∈ p, t.IsLexeme) → TailOfKinds ctx d p) with
  | condition single lexemes => exact single.ofKinds lexemes
  | enclosed room _ inner lexemes =>
    exact .enclosed room (inner fun t ht => lexemes t (by simp [ht]))
  | nil => exact .nil
  | cons connects _ term others lexemes =>
    refine .cons ((exists_connects_iff (lexemes _ (List.mem_cons_self ..))).mp ⟨_, connects⟩) ?_ ?_
    · exact term fun t ht => lexemes t (by simp [ht])
    · exact others fun t ht => lexemes t (by simp [ht])
  | fold _ _ first others =>
    have lexemes := List.forall_mem_append.mp lexemes
    exact .chain (first lexemes.1) (others lexemes.2)

mutual

theorem TermOfKinds.exists_termAt : ∀ {d p}, TermOfKinds ctx d p →
    (∀ t ∈ p, t.IsLexeme) → ∃ x cs, TermAt ctx d p x cs
  | _, _, .comparison named denoted given, lexemes => by
    obtain ⟨field, named⟩ := (exists_fieldOf_iff (lexemes _ (List.mem_cons_self ..))).mpr named
    exact ⟨_, _, .condition (.comparison named denoted given)⟩
  | _, _, .pattern named like given present, lexemes => by
    obtain ⟨field, named⟩ := (exists_fieldOf_iff (lexemes _ (List.mem_cons_self ..))).mpr named
    exact ⟨_, _, .condition (.pattern named like given present)⟩
  | _, _, .enclosed room inner, lexemes => by
    obtain ⟨x, cs, inner⟩ := inner.exists_chainAt fun t ht => lexemes t (by simp [ht])
    exact ⟨x, cs, .enclosed room inner⟩

theorem TailOfKinds.exists_tailAt : ∀ {d p}, TailOfKinds ctx d p →
    (∀ t ∈ p, t.IsLexeme) → ∃ terms cs, TailAt ctx d p terms cs
  | _, _, .nil, _ => ⟨[], [], .nil⟩
  | _, _, .cons connects term others, lexemes => by
    obtain ⟨l, connects⟩ := (exists_connects_iff (lexemes _ (List.mem_cons_self ..))).mpr connects
    obtain ⟨x, cs, term⟩ := term.exists_termAt fun t ht => lexemes t (by simp [ht])
    obtain ⟨terms, cs', others⟩ := others.exists_tailAt fun t ht => lexemes t (by simp [ht])
    exact ⟨_, _, .cons connects term others⟩

theorem ChainOfKinds.exists_chainAt : ∀ {d p}, ChainOfKinds ctx d p →
    (∀ t ∈ p, t.IsLexeme) → ∃ x cs, ChainAt ctx d p x cs
  | _, _, .chain first others, lexemes => by
    have lexemes := List.forall_mem_append.mp lexemes
    obtain ⟨x, cs, first⟩ := first.exists_termAt lexemes.1
    obtain ⟨terms, cs', others⟩ := others.exists_tailAt lexemes.2
    exact ⟨_, _, .fold first others⟩

end

theorem run_predicate_eq_ok_iff {ts rest : List Token} {x : Predicate} :
    (predicate ctx).run ts = (.ok x, rest) ↔
      ∃ p conditions, ts = p ++ rest ∧ EndsClause rest ∧ ChainAt ctx 0 p x conditions := by
  rw [Reader.run_eq_ok_iff]
  constructor
  · rintro ⟨p, rfl, h⟩
    obtain ⟨ends, conditions, chain⟩ := reads_predicate.mp h
    exact ⟨p, conditions, rfl, ends, chain⟩
  · rintro ⟨p, conditions, rfl, ends, chain⟩
    exact ⟨p, rfl, reads_predicate.mpr ⟨ends, conditions, chain⟩⟩

/-- The reader of WHERE clauses accepts exactly the clauses of the grammar in front of a later
clause or the end, and yields the fold of their terms. On the tokens of a text these are the clauses
by the kinds of their tokens. -/
theorem predicate_accepts_clauses (ctx : Context) (ts rest : List Token) (x : Predicate) :
    ((predicate ctx).run ts = (.ok x, rest) ↔
      ∃ p conditions, ts = p ++ rest ∧ EndsClause rest ∧ ChainAt ctx 0 p x conditions) ∧
    (∀ p conditions, ChainAt ctx 0 p x conditions →
      x.leaves = conditions ∧ x.leafCount = conditions.length) ∧
    (∀ text tokens, Token.tokenize text = .ok tokens → ∀ t ∈ tokens,
      (Connects .and t ↔ t.isKeyword "AND" = true ∨ t = .symbol "&&") ∧
        (Connects .or t ↔ t.isKeyword "OR" = true ∨ t = .symbol "||")) ∧
    (∀ text, Token.tokenize text = .ok ts →
      ((∃ y, (predicate ctx).run ts = (.ok y, rest)) ↔
        ∃ p, ts = p ++ rest ∧ EndsClause rest ∧ ChainOfKinds ctx 0 p)) := by
  refine ⟨run_predicate_eq_ok_iff, ?_, ?_, ?_⟩
  · intro p conditions chain
    rw [Predicate.leafCount_eq_length_leaves, chain.leaves_eq]
    exact ⟨rfl, rfl⟩
  · intro text tokens tokenized t ht
    exact connects_iff_of_isLexeme (Token.isLexeme_of_tokenize tokenized t ht)
  · intro text tokenized
    have lexemes : ∀ {p}, ts = p ++ rest → ∀ t ∈ p, t.IsLexeme := by
      rintro p rfl t ht
      exact Token.isLexeme_of_tokenize tokenized t (List.mem_append_left _ ht)
    constructor
    · rintro ⟨y, accepted⟩
      obtain ⟨p, conditions, split, ends, chain⟩ := run_predicate_eq_ok_iff.mp accepted
      exact ⟨p, split, ends, chain.ofKinds (lexemes split)⟩
    · rintro ⟨p, split, ends, chain⟩
      obtain ⟨y, conditions, chain⟩ := chain.exists_chainAt (lexemes split)
      exact ⟨y, run_predicate_eq_ok_iff.mpr ⟨p, conditions, split, ends, chain⟩⟩

/-- The word && is no connective by its kind and would name a field, but the reader refuses it. -/
theorem predicate_refuses_word_ampersands :
    ChainOfKinds ⟨{}, ∅⟩ 0 [.word "&&", .symbol "=", .word "1"] ∧ EndsClause [] ∧
      (predicate ⟨{}, ∅⟩).run [.word "&&", .symbol "=", .word "1"] =
        (.error (.unexpectedToken (.word "&&")), [.symbol "=", .word "1"]) := by
  refine ⟨?_, .nil, by decide +kernel⟩
  have field : IsField (.word "&&") := .word (by decide) (by decide)
  have given : (∅ : Params).ValueOf (.word "1") (.int 1) :=
    Params.valueOf_iff.mpr ⟨rfl, by decide +kernel⟩
  exact .chain (q := []) (.comparison (o := .eq) field (by decide) given) .nil

end Condition

end SqlBridge
