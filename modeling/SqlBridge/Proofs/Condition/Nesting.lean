import SqlBridge.Proofs.Statement.Clause

/-!
# How deep a clause nests

The depth of a clause is that of its parentheses: the most of them that are open at once. Neither
the number of parentheses nor the groups that connectives make count. A clause that is a chain under
some limit is one under every limit that its own depth keeps, and under no other.
-/

namespace SqlBridge

/-! ### Depth of parentheses -/

/-- The most parentheses that are open at once in a list of tokens, `n` being open before it. -/
def Token.deepest (n : Nat) : List Token → Nat
  | [] => n
  | .leftParen :: p => deepest (n + 1) p
  | .rightParen :: p => max n (deepest (n - 1) p)
  | _ :: p => deepest n p

/-- How deep the parentheses of a list of tokens nest. -/
def Token.nesting (p : List Token) : Nat :=
  deepest 0 p

namespace Token

variable {p q : List Token} {t : Token} {n : Nat}

theorem deepest_leftParen : deepest n (.leftParen :: p) = deepest (n + 1) p := by
  rw [deepest]

theorem deepest_rightParen : deepest n (.rightParen :: p) = max n (deepest (n - 1) p) := by
  rw [deepest]

theorem deepest_cons_of_ne (left : t ≠ .leftParen) (right : t ≠ .rightParen) :
    deepest n (t :: p) = deepest n p := by
  rw [deepest]
  · exact left
  · exact right

/-- What is open before the tokens is open at once. -/
theorem le_deepest : n ≤ deepest n p := by
  induction p generalizing n with
  | nil => exact Nat.le_refl _
  | cons t p ih =>
    by_cases left : t = .leftParen
    · rw [left, deepest_leftParen]
      exact Nat.le_trans (Nat.le_succ n) ih
    · by_cases right : t = .rightParen
      · rw [right, deepest_rightParen]
        exact Nat.le_max_left _ _
      · rw [deepest_cons_of_ne left right]
        exact ih

/-- The tokens close what they open and nothing else, so they nest as deep wherever they stand. -/
def Balanced (p : List Token) : Prop :=
  ∀ n q, deepest n (p ++ q) = max (n + nesting p) (deepest n q)

theorem balanced_nil : Balanced [] :=
  fun _ _ => (Nat.max_eq_right le_deepest).symm

theorem Balanced.cons (left : t ≠ .leftParen) (right : t ≠ .rightParen) (h : Balanced p) :
    Balanced (t :: p) := by
  intro n q
  rw [nesting, List.cons_append, deepest_cons_of_ne left right, deepest_cons_of_ne left right]
  exact h n q

theorem nesting_cons_of_ne (left : t ≠ .leftParen) (right : t ≠ .rightParen) :
    nesting (t :: p) = nesting p :=
  deepest_cons_of_ne left right

theorem Balanced.nesting_append (h : Balanced p) :
    nesting (p ++ q) = max (nesting p) (nesting q) := by
  rw [nesting, h 0 q, Nat.zero_add, nesting, nesting]

theorem Balanced.append (hp : Balanced p) (hq : Balanced q) : Balanced (p ++ q) := by
  intro n r
  rw [List.append_assoc, hp, hq, hp.nesting_append]
  omega

/-- Parentheses around balanced tokens are one more that is open. -/
theorem Balanced.deepest_enclosed (h : Balanced p) :
    deepest n (.leftParen :: (p ++ .rightParen :: q)) =
      max (n + (nesting p + 1)) (deepest n q) := by
  rw [deepest_leftParen, h, deepest_rightParen, Nat.add_sub_cancel]
  omega

theorem Balanced.nesting_enclosed (h : Balanced p) :
    nesting (.leftParen :: (p ++ [.rightParen])) = nesting p + 1 := by
  rw [nesting, h.deepest_enclosed, deepest]
  omega

theorem Balanced.enclosed (h : Balanced p) : Balanced (.leftParen :: (p ++ [.rightParen])) := by
  intro n q
  rw [h.nesting_enclosed, List.cons_append, List.append_assoc, List.singleton_append,
    h.deepest_enclosed]

end Token

namespace Condition

open Token

variable {ctx : Context} {p rest : List Token} {x : Predicate}

/-! ### Depth of a clause -/

/-- A condition has no parentheses. -/
theorem ConditionOf.ne_paren (h : ConditionOf ctx p x) :
    ∀ t ∈ p, t ≠ .leftParen ∧ t ≠ .rightParen := by
  cases h with
  | comparison named _ given => simp [named.ne_paren, given.ne_paren]
  | pattern named like given _ =>
    simp [named.ne_paren, Token.ne_paren_of_isKeyword like, given.ne_paren]

/-- Without parentheses nothing nests. -/
theorem balanced_of_ne_paren (h : ∀ t ∈ p, t ≠ .leftParen ∧ t ≠ .rightParen) :
    Balanced p ∧ nesting p = 0 := by
  induction p with
  | nil => exact ⟨balanced_nil, rfl⟩
  | cons t p ih =>
    obtain ⟨⟨left, right⟩, others⟩ := List.forall_mem_cons.mp h
    obtain ⟨balanced, flat⟩ := ih others
    exact ⟨balanced.cons left right, (nesting_cons_of_ne left right).trans flat⟩

variable {d : Nat} {cs : List Predicate}

theorem ChainAt.balanced (h : ChainAt ctx d p x cs) : Balanced p := by
  induction h using ChainAt.induct (T := fun _ p _ _ => Balanced p)
    (Q := fun _ p _ _ => Balanced p) with
  | condition single => exact (balanced_of_ne_paren single.ne_paren).1
  | enclosed _ _ inner => exact inner.enclosed
  | nil => exact balanced_nil
  | cons connects _ term others =>
    exact (term.append others).cons connects.ne_paren.1 connects.ne_paren.2
  | fold _ _ first others => exact first.append others

theorem TermAt.balanced (h : TermAt ctx d p x cs) : Balanced p :=
  h.chain.balanced

/-! ### Chains under a limit -/

/-- Inside as many parentheses as are allowed, chains nest no deeper than what is left. -/
theorem ChainAt.nesting_le (h : ChainAt ctx d p x cs)
    (allowed : d ≤ ctx.settings.maxPredicateDepth.toNat) :
    d + nesting p ≤ ctx.settings.maxPredicateDepth.toNat := by
  induction h using ChainAt.induct
    (T := fun d p _ _ => d ≤ ctx.settings.maxPredicateDepth.toNat →
      d + nesting p ≤ ctx.settings.maxPredicateDepth.toNat)
    (Q := fun d p _ _ => d ≤ ctx.settings.maxPredicateDepth.toNat →
      d + nesting p ≤ ctx.settings.maxPredicateDepth.toNat) with
  | condition single allowed =>
    rw [(balanced_of_ne_paren single.ne_paren).2]
    exact allowed
  | enclosed room chain inner _ =>
    have deeper := inner room
    rw [chain.balanced.nesting_enclosed]
    omega
  | nil allowed => exact allowed
  | cons connects single term others allowed =>
    have first := term allowed
    have tail := others allowed
    rw [nesting_cons_of_ne connects.ne_paren.1 connects.ne_paren.2, single.balanced.nesting_append]
    omega
  | fold single _ first others =>
    have head := first allowed
    have tail := others allowed
    rw [single.balanced.nesting_append]
    omega

/-- Nothing but the flags of patterns depends on the settings in a condition. -/
theorem ConditionOf.again (h : ConditionOf ctx p x) {settings : Settings}
    (case : settings.caseInsensitiveLike = ctx.settings.caseInsensitiveLike) :
    ConditionOf ⟨settings, ctx.params⟩ p x := by
  cases h with
  | comparison named denoted given => exact .comparison named denoted given
  | pattern named like given present =>
    rw [← case]
    exact .pattern named like given present

/-- Chains are chains under every limit that their depth keeps. -/
theorem ChainAt.again (h : ChainAt ctx d p x cs) {settings : Settings}
    (case : settings.caseInsensitiveLike = ctx.settings.caseInsensitiveLike)
    (deep : d + nesting p ≤ settings.maxPredicateDepth.toNat) :
    ChainAt ⟨settings, ctx.params⟩ d p x cs := by
  induction h using ChainAt.induct
    (T := fun d p x cs => d + nesting p ≤ settings.maxPredicateDepth.toNat →
      TermAt ⟨settings, ctx.params⟩ d p x cs)
    (Q := fun d p terms cs => d + nesting p ≤ settings.maxPredicateDepth.toNat →
      TailAt ⟨settings, ctx.params⟩ d p terms cs) with
  | condition single _ => exact .condition (single.again case)
  | @enclosed d p _ _ _ chain inner deep =>
    rw [chain.balanced.nesting_enclosed] at deep
    have left : d + 1 + nesting p ≤ settings.maxPredicateDepth.toNat := by omega
    exact .enclosed (by dsimp only; omega) (inner left)
  | nil => exact .nil
  | cons connects single term others deep =>
    rw [nesting_cons_of_ne connects.ne_paren.1 connects.ne_paren.2, single.balanced.nesting_append]
      at deep
    exact .cons connects (term (by omega)) (others (by omega))
  | fold single _ first others =>
    rw [single.balanced.nesting_append] at deep
    exact .fold (first (by omega)) (others (by omega))

theorem WhereOf.nesting_le {filter : Option Predicate} (h : WhereOf ctx rest p filter) :
    Token.nesting p.tail ≤ ctx.settings.maxPredicateDepth.toNat := by
  cases h with
  | clause _ chain =>
    have deep := chain.nesting_le (Nat.zero_le _)
    rwa [Nat.zero_add] at deep
  | absent => exact Nat.zero_le _

/-- A clause is one under every limit that its depth keeps. -/
theorem WhereOf.again {filter : Option Predicate} (h : WhereOf ctx rest p filter)
    {settings : Settings}
    (case : settings.caseInsensitiveLike = ctx.settings.caseInsensitiveLike)
    (deep : Token.nesting p.tail ≤ settings.maxPredicateDepth.toNat) :
    WhereOf ⟨settings, ctx.params⟩ rest p filter := by
  cases h with
  | clause opens chain ends =>
    exact .clause opens (chain.again case (by rwa [Nat.zero_add])) ends
  | absent ended => exact .absent ended

end Condition

end SqlBridge
