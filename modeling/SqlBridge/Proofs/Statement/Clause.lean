import SqlBridge.Proofs.Condition.Grammar
import SqlBridge.Statement.Join
import SqlBridge.Statement.Select

/-!
# The grammar of clauses

For each clause a judgment says which tokens are that clause in front of which others, and what the
clause means. The tokens that follow matter where something may be left out: an alias, a direction
or a whole clause is absent only if what follows does not start one. Each reader of a clause reads
exactly what its judgment describes.
-/

namespace SqlBridge

open Reader

namespace Token

/-- A token is one keyword only. -/
theorem upper_eq_of_isKeyword {t : Token} {a b : String} (ha : t.isKeyword a = true)
    (hb : t.isKeyword b = true) : Text.upper a = Text.upper b := by
  cases t with
  | word text =>
    exact (Text.sameWord_iff_upper_eq.mp ha).symm.trans (Text.sameWord_iff_upper_eq.mp hb)
  | _ => cases ha

/-- A reserved word is no name, whatever its case. -/
theorem not_isKeyword_of_name? {t : Token} {a k : String} (named : t.name? = some a)
    (reserved : k ∈ reservedWords) : ¬ t.isKeyword k = true := by
  intro keyword
  cases t with
  | word text =>
    have : isReserved text = true := by
      refine List.any_eq_true.mpr ⟨k, reserved, ?_⟩
      rw [Text.sameWord_comm]
      exact keyword
    simp [name?, this] at named
  | _ => cases keyword

/-- A keyword is no other token. -/
theorem ne_of_isKeyword {t u : Token} {k : String} (same : t.isKeyword k = true)
    (other : u.isKeyword k = false) : t ≠ u := by
  rintro rfl
  rw [same] at other
  cases other

theorem ne_paren_of_isKeyword {t : Token} {k : String} (same : t.isKeyword k = true) :
    t ≠ .leftParen ∧ t ≠ .rightParen :=
  ⟨ne_of_isKeyword same rfl, ne_of_isKeyword same rfl⟩

theorem ne_paren_of_name? {t : Token} {a : String} (named : t.name? = some a) :
    t ≠ .leftParen ∧ t ≠ .rightParen := by
  constructor <;> rintro rfl <;> cases named

end Token

theorem Reader.name?_of_bareAlias? {t : Token} {a : String} (h : bareAlias? t = some a) :
    t.name? = some a := by
  cases t <;> first | exact h | cases h

variable {ctx : Context} {p rest : List Token}

/-! ### Tables -/

/-- The next token can be no alias, neither with AS nor without. -/
def NoAlias (rest : List Token) : Prop :=
  ¬ AtKeyword "AS" rest ∧ rest.head?.bind bareAlias? = none

inductive AliasOf (rest : List Token) : List Token → Option String → Prop where
  | explicit {k t : Token} {a : String} (as : k.isKeyword "AS" = true) (named : t.name? = some a) :
      AliasOf rest [k, t] (some a)
  | bare {t : Token} {a : String} (named : bareAlias? t = some a) : AliasOf rest [t] (some a)
  | absent (ended : NoAlias rest) : AliasOf rest [] none

theorem reads_alias? {o : Option String} : alias?.Reads p o rest ↔ AliasOf rest p o := by
  rw [alias?, reads_eatKeyword_bind]
  constructor
  · rintro (⟨k, s, rfl, as, h⟩ | ⟨apart, h⟩)
    · obtain ⟨t, s, a, rfl, named, h⟩ := reads_name_bind.mp h
      obtain ⟨rfl, rfl⟩ := reads_pure.mp h
      exact .explicit as named
    · simp only [Bool.false_eq_true, if_false] at h
      rw [reads_peek_bind] at h
      split at h
      · next a found =>
        obtain ⟨t, s, rfl, h⟩ | ⟨rfl, rfl, _⟩ := reads_next_bind.mp h
        · obtain ⟨rfl, rfl⟩ := reads_pure.mp h
          exact .bare found
        · cases found
      · next missing =>
        obtain ⟨rfl, rfl⟩ := reads_pure.mp h
        exact .absent ⟨apart, missing⟩
  · intro h
    cases h with
    | explicit as named =>
      refine .inl ⟨_, _, rfl, as, reads_name_bind.mpr ⟨_, [], _, rfl, named, ?_⟩⟩
      exact reads_pure.mpr ⟨rfl, rfl⟩
    | @bare t a named =>
      refine .inr ⟨?_, ?_⟩
      · exact Token.not_isKeyword_of_name? (name?_of_bareAlias? named) (by decide)
      · simp only [Bool.false_eq_true, if_false]
        rw [reads_peek_bind]
        simp only [List.cons_append, List.head?_cons, Option.bind_some, named]
        exact reads_next_bind.mpr (.inl ⟨t, [], rfl, reads_pure.mpr ⟨rfl, rfl⟩⟩)
    | absent ended =>
      refine .inr ⟨ended.1, ?_⟩
      simp only [Bool.false_eq_true, if_false]
      rw [reads_peek_bind, List.nil_append, ended.2]
      exact reads_pure.mpr ⟨rfl, rfl⟩

inductive TableOf (rest : List Token) : List Token → TableRef → Prop where
  | table {t : Token} {q : List Token} {name : String} {o : Option String}
      (named : t.name? = some name) (renamed : AliasOf rest q o) : TableOf rest (t :: q) ⟨name, o⟩

theorem TableRef.reads_reader {table : TableRef} :
    TableRef.reader.Reads p table rest ↔ TableOf rest p table := by
  rw [TableRef.reader, reads_name_bind]
  constructor
  · rintro ⟨t, s, name, rfl, named, h⟩
    obtain ⟨q, s, o, rfl, renamed, h⟩ := reads_bind.mp h
    obtain ⟨rfl, rfl⟩ := reads_pure.mp h
    rw [List.append_nil]
    exact .table named (reads_alias?.mp renamed)
  · intro h
    cases h with
    | @table t q name o named renamed =>
      refine ⟨t, q, name, rfl, named, reads_bind.mpr ⟨q, [], o, (List.append_nil q).symm, ?_, ?_⟩⟩
      · exact reads_alias?.mpr renamed
      · exact reads_pure.mpr ⟨rfl, rfl⟩

/-! ### Select lists -/

namespace Select

/-- An entry of the select list: the word `*`, or a column with or without an alias. -/
inductive ColumnOf (rest : List Token) : List Token → Column → Prop where
  | star : ColumnOf rest [.word "*"] .star
  | renamed {t k u : Token} {name a : String} (visible : t ≠ .word "*")
      (named : t.name? = some name) (as : k.isKeyword "AS" = true) (other : u.name? = some a) :
      ColumnOf rest [t, k, u] (.named name (some a))
  | plain {t : Token} {name : String} (visible : t ≠ .word "*") (named : t.name? = some name)
      (ended : ¬ AtKeyword "AS" rest) : ColumnOf rest [t] (.named name none)

theorem reads_column {c : Column} : column.Reads p c rest ↔ ColumnOf rest p c := by
  rw [column, reads_peek_bind, reads_ite]
  constructor
  · rintro (⟨star, h⟩ | ⟨visible, h⟩)
    · obtain ⟨t, s, rfl, h⟩ | ⟨rfl, rfl, _⟩ := reads_next_bind.mp h
      · obtain ⟨rfl, rfl⟩ := reads_pure.mp h
        obtain rfl : t = .word "*" := Option.some.inj star
        exact .star
      · cases star
    · obtain ⟨t, s, name, rfl, named, h⟩ := reads_name_bind.mp h
      have other : t ≠ .word "*" := fun h => visible (congrArg some h)
      obtain ⟨k, s, rfl, as, h⟩ | ⟨ended, h⟩ := reads_eatKeyword_bind.mp h
      · obtain ⟨u, s, a, rfl, renamed, h⟩ := reads_name_bind.mp h
        obtain ⟨rfl, rfl⟩ := reads_pure.mp h
        exact .renamed other named as renamed
      · obtain ⟨rfl, rfl⟩ := reads_pure.mp h
        exact .plain other named ended
  · intro h
    cases h with
    | star =>
      exact .inl ⟨rfl, reads_next_bind.mpr (.inl ⟨_, [], rfl, reads_pure.mpr ⟨rfl, rfl⟩⟩)⟩
    | @renamed t k u name a visible named as other =>
      refine .inr ⟨fun h => visible (Option.some.inj h), reads_name_bind.mpr ?_⟩
      refine ⟨t, [k, u], name, rfl, named, reads_eatKeyword_bind.mpr (.inl ⟨k, [u], rfl, as, ?_⟩)⟩
      exact reads_name_bind.mpr ⟨u, [], a, rfl, other, reads_pure.mpr ⟨rfl, rfl⟩⟩
    | @plain t name visible named ended =>
      refine .inr ⟨fun h => visible (Option.some.inj h), reads_name_bind.mpr ?_⟩
      refine ⟨t, [], name, rfl, named, reads_eatKeyword_bind.mpr (.inr ⟨ended, ?_⟩)⟩
      exact reads_pure.mpr ⟨rfl, rfl⟩

/-- No entry of the select list starts with a reserved word. -/
theorem ColumnOf.not_isKeyword {c : Column} (h : ColumnOf rest p c) {k : String}
    (reserved : k ∈ Token.reservedWords) : ∃ t q, p = t :: q ∧ ¬ t.isKeyword k = true := by
  cases h with
  | star =>
    have apart : ∀ w ∈ Token.reservedWords, ¬ (Token.word "*").isKeyword w = true := by decide
    exact ⟨_, _, rfl, apart k reserved⟩
  | renamed _ named => exact ⟨_, _, rfl, Token.not_isKeyword_of_name? named reserved⟩
  | plain _ named => exact ⟨_, _, rfl, Token.not_isKeyword_of_name? named reserved⟩

theorem not_isKeyword_of_items {cs : List Column} (h : Items ColumnOf rest p cs) {k : String}
    (reserved : k ∈ Token.reservedWords) : ∃ t q, p = t :: q ∧ ¬ t.isKeyword k = true := by
  cases h with
  | last only => exact only.not_isKeyword reserved
  | more first =>
    obtain ⟨t, q, rfl, apart⟩ := first.not_isKeyword reserved
    exact ⟨t, _, rfl, apart⟩

theorem reads_columns {cs : List Column} : columns.Reads p cs rest ↔ Items ColumnOf rest p cs := by
  rw [columns, reads_peek_bind, reads_ite]
  constructor
  · rintro (⟨_, h⟩ | ⟨_, h⟩)
    · exact False.elim (not_reads_fail_bind h)
    · exact (reads_list reads_column).mp h
  · intro h
    obtain ⟨t, q, rfl, apart⟩ := not_isKeyword_of_items h (k := "FROM") (by decide)
    exact .inr ⟨by simpa using apart, (reads_list reads_column).mpr h⟩

end Select

/-! ### Joins -/

namespace Join

/-- The keywords that open a join. -/
inductive Opens : List Token → Prop where
  | join {j : Token} (join : j.isKeyword "JOIN" = true) : Opens [j]
  | left {l j : Token} (left : l.isKeyword "LEFT" = true) (join : j.isKeyword "JOIN" = true) :
      Opens [l, j]
  | leftOuter {l o j : Token} (left : l.isKeyword "LEFT" = true)
      (outer : o.isKeyword "OUTER" = true) (join : j.isKeyword "JOIN" = true) : Opens [l, o, j]

/-- The equality of two names, in parentheses or not. -/
inductive EqualityOf : List Token → String → String → Prop where
  | bare {t u : Token} {left right : String} (first : t.name? = some left)
      (second : u.name? = some right) : EqualityOf [t, .symbol "=", u] left right
  | enclosed {t u : Token} {left right : String} (first : t.name? = some left)
      (second : u.name? = some right) :
      EqualityOf [.leftParen, t, .symbol "=", u, .rightParen] left right

/-- The joined table with its condition, after the keywords that open the join. -/
inductive JoinedOf (outer : TableRef) (rest : List Token) : List Token → Lookup → Prop where
  | on {k : Token} {p q : List Token} {joined : TableRef} {left right : String} {stage : Lookup}
      (table : TableOf (k :: (q ++ rest)) p joined) (on : k.isKeyword "ON" = true)
      (equality : EqualityOf q left right) (found : lookup outer joined left right = .ok stage) :
      JoinedOf outer rest (p ++ k :: q) stage

/-- No join follows, not even one of a kind without lookup. -/
def NoJoin (rest : List Token) : Prop :=
  ∀ k ∈ "LEFT" :: "JOIN" :: unsupportedKinds, ¬ AtKeyword k rest

inductive JoinsOf (outer : TableRef) (rest : List Token) : List Token → List Lookup → Prop where
  | nil (ended : NoJoin rest) : JoinsOf outer rest [] []
  | cons {w p q : List Token} {stage : Lookup} {stages : List Lookup} (opens : Opens w)
      (first : JoinedOf outer (q ++ rest) p stage) (others : JoinsOf outer rest q stages) :
      JoinsOf outer rest (w ++ (p ++ q)) (stage :: stages)

variable {outer : TableRef} {stage : Lookup}

theorem reads_afterJoin :
    (joinReader.afterJoin outer).Reads p stage rest ↔ JoinedOf outer rest p stage := by
  rw [joinReader.afterJoin, reads_bind]
  constructor
  · rintro ⟨q, s, joined, rfl, table, h⟩
    obtain ⟨k, s, rfl, on, h⟩ := reads_expectKeyword_bind.mp h
    have table := TableRef.reads_reader.mp table
    obtain ⟨s, rfl, h⟩ | ⟨_, h⟩ := reads_eat_bind.mp h
    · obtain ⟨t, s, left, rfl, first, h⟩ := reads_name_bind.mp h
      obtain ⟨s, rfl, h⟩ := reads_next_guard.mp h
      obtain ⟨u, s, right, rfl, second, h⟩ := reads_name_bind.mp h
      obtain ⟨s, rfl, h⟩ := reads_expect_bind.mp h
      obtain ⟨rfl, found⟩ := reads_ofExcept.mp h
      exact .on table on (.enclosed first second) found
    · obtain ⟨t, s, left, rfl, first, h⟩ := reads_name_bind.mp h
      obtain ⟨s, rfl, h⟩ := reads_next_guard.mp h
      obtain ⟨u, s, right, rfl, second, h⟩ := reads_name_bind.mp h
      obtain ⟨rfl, found⟩ := reads_ofExcept.mp h
      exact .on table on (.bare first second) found
  · intro h
    cases h with
    | @on k p q joined left right stage table on equality found =>
      refine ⟨p, k :: q, joined, rfl, TableRef.reads_reader.mpr table, ?_⟩
      refine reads_expectKeyword_bind.mpr ⟨k, q, rfl, on, ?_⟩
      cases equality with
      | @bare t u _ _ first second =>
        have unopened : t ≠ .leftParen := by
          rintro rfl
          cases first
        refine reads_eat_bind.mpr (.inr ⟨by simpa using unopened, reads_name_bind.mpr ?_⟩)
        refine ⟨t, [.symbol "=", u], left, rfl, first, reads_next_guard.mpr ⟨[u], rfl, ?_⟩⟩
        refine reads_name_bind.mpr ⟨u, [], right, rfl, second, ?_⟩
        exact reads_ofExcept.mpr ⟨rfl, found⟩
      | @enclosed t u _ _ first second =>
        refine reads_eat_bind.mpr (.inl ⟨_, rfl, reads_name_bind.mpr ?_⟩)
        refine ⟨t, [.symbol "=", u, .rightParen], left, rfl, first, reads_next_guard.mpr ?_⟩
        refine ⟨[u, .rightParen], rfl, reads_name_bind.mpr ?_⟩
        refine ⟨u, [.rightParen], right, rfl, second, reads_expect_bind.mpr ⟨[], rfl, ?_⟩⟩
        exact reads_ofExcept.mpr ⟨rfl, found⟩

theorem start?_eq_left_iff {t : Token} :
    start? t = .ok (some .left) ↔ t.isKeyword "LEFT" = true := by
  constructor
  · intro h
    simp only [start?] at h
    split at h
    · assumption
    · split at h
      · cases h
      · split at h <;> cases h
  · intro left
    rw [start?, if_pos left]

theorem start?_eq_join_iff {t : Token} :
    start? t = .ok (some .join) ↔ t.isKeyword "JOIN" = true := by
  constructor
  · intro h
    simp only [start?] at h
    split at h
    · cases h
    · split at h
      · assumption
      · split at h <;> cases h
  · intro join
    have left : ¬ t.isKeyword "LEFT" = true := fun left =>
      absurd (Token.upper_eq_of_isKeyword left join) (by decide)
    rw [start?, if_neg left, if_pos join]

theorem start?_eq_none_iff {t : Token} :
    start? t = .ok none ↔ ∀ k ∈ "LEFT" :: "JOIN" :: unsupportedKinds, ¬ t.isKeyword k = true := by
  simp only [List.forall_mem_cons]
  constructor
  · intro h
    simp only [start?] at h
    split at h
    · cases h
    · next left =>
      split at h
      · cases h
      · next join =>
        split at h
        · cases h
        · next missing => exact ⟨left, join, by simpa using List.find?_eq_none.mp missing⟩
  · rintro ⟨left, join, others⟩
    have missing : unsupportedKinds.find? (fun kind => t.isKeyword kind) = none :=
      List.find?_eq_none.mpr others
    rw [start?, if_neg left, if_neg join, missing]

theorem noJoin_iff : NoJoin rest ↔ ∀ t ∈ rest.head?, start? t = .ok none := by
  simp only [start?_eq_none_iff, NoJoin]
  rcases rest with _ | ⟨t, rest⟩
  · simp
  · simp

/-- The keywords that may follow the one a join starts with. -/
inductive Follows : Start → List Token → Prop where
  | nothing : Follows .join []
  | join {j : Token} (join : j.isKeyword "JOIN" = true) : Follows .left [j]
  | outer {o j : Token} (outer : o.isKeyword "OUTER" = true) (join : j.isKeyword "JOIN" = true) :
      Follows .left [o, j]

theorem opens_cons_iff {t : Token} {w : List Token} :
    Opens (t :: w) ↔ ∃ s, start? t = .ok (some s) ∧ Follows s w := by
  constructor
  · intro h
    cases h with
    | join join => exact ⟨.join, start?_eq_join_iff.mpr join, .nothing⟩
    | left left join => exact ⟨.left, start?_eq_left_iff.mpr left, .join join⟩
    | leftOuter left outer join => exact ⟨.left, start?_eq_left_iff.mpr left, .outer outer join⟩
  · rintro ⟨s, start, follows⟩
    cases follows with
    | nothing => exact .join (start?_eq_join_iff.mp start)
    | join join => exact .left (start?_eq_left_iff.mp start) join
    | outer outer join => exact .leftOuter (start?_eq_left_iff.mp start) outer join

theorem reads_joinReader {s : Start} :
    (joinReader outer s).Reads p stage rest ↔
      ∃ w q, p = w ++ q ∧ Follows s w ∧ JoinedOf outer rest q stage := by
  cases s with
  | join =>
    rw [joinReader, reads_afterJoin]
    constructor
    · intro h
      exact ⟨[], p, rfl, .nothing, h⟩
    · rintro ⟨w, q, rfl, follows, h⟩
      cases follows
      exact h
  | left =>
    rw [joinReader, reads_eatKeyword_bind]
    constructor
    · rintro (⟨o, s, rfl, outer, h⟩ | ⟨_, h⟩)
      · obtain ⟨j, s, rfl, join, h⟩ := reads_expectKeyword_bind.mp h
        exact ⟨[o, j], s, rfl, .outer outer join, reads_afterJoin.mp h⟩
      · obtain ⟨j, s, rfl, join, h⟩ := reads_expectKeyword_bind.mp h
        exact ⟨[j], s, rfl, .join join, reads_afterJoin.mp h⟩
    · rintro ⟨w, q, rfl, follows, h⟩
      have h := reads_afterJoin.mpr h
      cases follows with
      | @join j join =>
        have apart : ¬ j.isKeyword "OUTER" = true := fun outer =>
          absurd (Token.upper_eq_of_isKeyword outer join) (by decide)
        refine .inr ⟨by simpa using apart, ?_⟩
        exact reads_expectKeyword_bind.mpr ⟨j, q, rfl, join, h⟩
      | @outer o j outer join =>
        refine .inl ⟨o, j :: q, rfl, outer, ?_⟩
        exact reads_expectKeyword_bind.mpr ⟨j, q, rfl, join, h⟩

theorem reads_joins {stages : List Lookup} :
    (joins outer).Reads p stages rest ↔ JoinsOf outer rest p stages := by
  have general : ∀ before after,
      Rounds start? (fun before s => do return before ++ [← joinReader outer s]) rest before p
        after ↔ ∃ stages, after = before ++ stages ∧ JoinsOf outer rest p stages := by
    intro before after
    constructor
    · intro rounds
      induction rounds with
      | stop ended => exact ⟨[], (List.append_nil _).symm, .nil (noJoin_iff.mpr ended)⟩
      | round on first _ ih =>
        obtain ⟨stage, taken, rfl⟩ := reads_item.mp first
        obtain ⟨stages, rfl, others⟩ := ih
        obtain ⟨w, q, rfl, follows, joined⟩ := reads_joinReader.mp taken
        refine ⟨stage :: stages, by simp, ?_⟩
        rw [List.append_assoc, ← List.cons_append]
        exact .cons (opens_cons_iff.mpr ⟨_, on, follows⟩) joined others
    · rintro ⟨stages, rfl, joins⟩
      induction joins generalizing before with
      | nil ended =>
        rw [List.append_nil]
        exact .stop (noJoin_iff.mp ended)
      | @cons w p q stage stages opens first _ ih =>
        have tail := ih (before ++ [stage])
        rw [List.append_assoc, List.singleton_append] at tail
        rcases w with _ | ⟨t, w⟩
        · cases opens
        · obtain ⟨s, start, follows⟩ := opens_cons_iff.mp opens
          rw [List.cons_append, ← List.append_assoc]
          refine .round start (reads_item.mpr ⟨stage, ?_, rfl⟩) tail
          exact reads_joinReader.mpr ⟨w, p, rfl, follows, first⟩
  rw [joins, reads_loop, general]
  simp

end Join

/-! ### ORDER BY and LIMIT -/

namespace Ordering

/-- A field to order by: it says DESC, or it says ASC or nothing. -/
inductive ElementOf (rest : List Token) : List Token → OrderElement → Prop where
  | descending {t k : Token} {field : String} (named : t.name? = some field)
      (desc : k.isKeyword "DESC" = true) : ElementOf rest [t, k] ⟨field, .desc⟩
  | ascending {t k : Token} {field : String} (named : t.name? = some field)
      (asc : k.isKeyword "ASC" = true) : ElementOf rest [t, k] ⟨field, .asc⟩
  | plain {t : Token} {field : String} (named : t.name? = some field)
      (ended : ¬ AtKeyword "DESC" rest ∧ ¬ AtKeyword "ASC" rest) : ElementOf rest [t] ⟨field, .asc⟩

inductive OrderByOf (rest : List Token) : List Token → List OrderElement → Prop where
  | clause {k j : Token} {p : List Token} {elements : List OrderElement}
      (order : k.isKeyword "ORDER" = true) (by_ : j.isKeyword "BY" = true)
      (items : Items ElementOf rest p elements) : OrderByOf rest (k :: j :: p) elements
  | absent (ended : ¬ AtKeyword "ORDER" rest) : OrderByOf rest [] []

theorem reads_element {e : OrderElement} : element.Reads p e rest ↔ ElementOf rest p e := by
  rw [element, reads_name_bind]
  constructor
  · rintro ⟨t, s, field, rfl, named, h⟩
    obtain ⟨k, s, rfl, desc, h⟩ | ⟨undesc, h⟩ := reads_eatKeyword_bind.mp h
    · obtain ⟨rfl, rfl⟩ := reads_pure.mp h
      exact .descending named desc
    · obtain ⟨k, s, rfl, asc, h⟩ | ⟨unasc, h⟩ := reads_eatKeyword_bind.mp h
      · obtain ⟨rfl, rfl⟩ := reads_pure.mp h
        exact .ascending named asc
      · obtain ⟨rfl, rfl⟩ := reads_pure.mp h
        exact .plain named ⟨undesc, unasc⟩
  · intro h
    cases h with
    | @descending t k field named desc =>
      refine ⟨t, [k], field, rfl, named, reads_eatKeyword_bind.mpr (.inl ⟨k, [], rfl, desc, ?_⟩)⟩
      exact reads_pure.mpr ⟨rfl, rfl⟩
    | @ascending t k field named asc =>
      have apart : ¬ k.isKeyword "DESC" = true := fun desc =>
        absurd (Token.upper_eq_of_isKeyword asc desc) (by decide)
      refine ⟨t, [k], field, rfl, named, reads_eatKeyword_bind.mpr (.inr ⟨apart, ?_⟩)⟩
      exact reads_eatKeyword_bind.mpr (.inl ⟨k, [], rfl, asc, reads_pure.mpr ⟨rfl, rfl⟩⟩)
    | @plain t field named ended =>
      refine ⟨t, [], field, rfl, named, reads_eatKeyword_bind.mpr (.inr ⟨ended.1, ?_⟩)⟩
      exact reads_eatKeyword_bind.mpr (.inr ⟨ended.2, reads_pure.mpr ⟨rfl, rfl⟩⟩)

theorem reads_orderBy {elements : List OrderElement} :
    orderBy.Reads p elements rest ↔ OrderByOf rest p elements := by
  rw [orderBy, reads_eatKeyword_bind]
  constructor
  · rintro (⟨k, s, rfl, order, h⟩ | ⟨ended, h⟩)
    · obtain ⟨j, s, rfl, by_, h⟩ := reads_expectKeyword_bind.mp h
      exact .clause order by_ ((reads_list reads_element).mp h)
    · obtain ⟨rfl, rfl⟩ := reads_pure.mp h
      exact .absent ended
  · intro h
    cases h with
    | @clause k j p elements order by_ items =>
      refine .inl ⟨k, j :: p, rfl, order, reads_expectKeyword_bind.mpr ⟨j, p, rfl, by_, ?_⟩⟩
      exact (reads_list reads_element).mpr items
    | absent ended => exact .inr ⟨ended, reads_pure.mpr ⟨rfl, rfl⟩⟩

/-- A LIMIT clause: a count, an offset and a count, or a count with an OFFSET. -/
inductive LimitOf (ctx : Context) (rest : List Token) : List Token → Option Limit → Prop where
  | count {k t : Token} {n : UInt64} (limit : k.isKeyword "LIMIT" = true)
      (given : ctx.CountOf t n) (ended : rest.head? ≠ some .comma ∧ ¬ AtKeyword "OFFSET" rest) :
      LimitOf ctx rest [k, t] (some ⟨0, n⟩)
  | pair {k t u : Token} {m n : UInt64} (limit : k.isKeyword "LIMIT" = true)
      (first : ctx.CountOf t m) (second : ctx.CountOf u n) :
      LimitOf ctx rest [k, t, .comma, u] (some ⟨m, n⟩)
  | offset {k t o u : Token} {m n : UInt64} (limit : k.isKeyword "LIMIT" = true)
      (first : ctx.CountOf t n) (offset : o.isKeyword "OFFSET" = true) (second : ctx.CountOf u m) :
      LimitOf ctx rest [k, t, o, u] (some ⟨m, n⟩)
  | absent (ended : ¬ AtKeyword "LIMIT" rest) : LimitOf ctx rest [] none

theorem reads_limit? {o : Option Limit} : (limit? ctx).Reads p o rest ↔ LimitOf ctx rest p o := by
  rw [limit?, reads_eatKeyword_bind]
  constructor
  · rintro (⟨k, s, rfl, limit, h⟩ | ⟨ended, h⟩)
    · obtain ⟨t, s, n, rfl, first, h⟩ := Context.reads_count_bind.mp h
      obtain ⟨s, rfl, h⟩ | ⟨apart, h⟩ := reads_eat_bind.mp h
      · obtain ⟨u, s, m, rfl, second, h⟩ := Context.reads_count_bind.mp h
        obtain ⟨rfl, rfl⟩ := reads_pure.mp h
        exact .pair limit first second
      · obtain ⟨w, s, rfl, offset, h⟩ | ⟨ended, h⟩ := reads_eatKeyword_bind.mp h
        · obtain ⟨u, s, m, rfl, second, h⟩ := Context.reads_count_bind.mp h
          obtain ⟨rfl, rfl⟩ := reads_pure.mp h
          exact .offset limit first offset second
        · obtain ⟨rfl, rfl⟩ := reads_pure.mp h
          exact .count limit first ⟨apart, ended⟩
    · obtain ⟨rfl, rfl⟩ := reads_pure.mp h
      exact .absent ended
  · intro h
    cases h with
    | @count k t n limit given ended =>
      refine .inl ⟨k, [t], rfl, limit, Context.reads_count_bind.mpr ⟨t, [], n, rfl, given, ?_⟩⟩
      refine reads_eat_bind.mpr (.inr ⟨ended.1, reads_eatKeyword_bind.mpr (.inr ⟨ended.2, ?_⟩)⟩)
      exact reads_pure.mpr ⟨rfl, rfl⟩
    | @pair k t u m n limit first second =>
      refine .inl ⟨k, [t, .comma, u], rfl, limit, Context.reads_count_bind.mpr ?_⟩
      refine ⟨t, [.comma, u], m, rfl, first, reads_eat_bind.mpr (.inl ⟨[u], rfl, ?_⟩)⟩
      refine Context.reads_count_bind.mpr ⟨u, [], n, rfl, second, ?_⟩
      exact reads_pure.mpr ⟨rfl, rfl⟩
    | @offset k t w u m n limit first offset second =>
      have apart : w ≠ .comma := by
        rintro rfl
        cases offset
      refine .inl ⟨k, [t, w, u], rfl, limit, Context.reads_count_bind.mpr ?_⟩
      refine ⟨t, [w, u], n, rfl, first, reads_eat_bind.mpr (.inr ⟨by simpa using apart, ?_⟩)⟩
      refine reads_eatKeyword_bind.mpr (.inl ⟨w, [u], rfl, offset, ?_⟩)
      refine Context.reads_count_bind.mpr ⟨u, [], m, rfl, second, ?_⟩
      exact reads_pure.mpr ⟨rfl, rfl⟩
    | absent ended => exact .inr ⟨ended, reads_pure.mpr ⟨rfl, rfl⟩⟩

end Ordering

/-! ### WHERE -/

namespace Condition

inductive WhereOf (ctx : Context) (rest : List Token) : List Token → Option Predicate → Prop where
  | clause {k : Token} {p : List Token} {x : Predicate} {conditions : List Predicate}
      (opens : k.isKeyword "WHERE" = true) (chain : ChainAt ctx 0 p x conditions)
      (ends : EndsClause rest) : WhereOf ctx rest (k :: p) (some x)
  | absent (ended : ¬ AtKeyword "WHERE" rest) : WhereOf ctx rest [] none

theorem WhereOf.head?_ne {o : Option Predicate} (h : WhereOf ctx rest p o) :
    p.head? ≠ some .comma := by
  cases h with
  | clause opens =>
    rintro ⟨rfl⟩
    cases opens
  | absent => simp

theorem reads_whereClause? {o : Option Predicate} :
    (whereClause? ctx).Reads p o rest ↔ WhereOf ctx rest p o := by
  rw [whereClause?, reads_eatKeyword_bind]
  constructor
  · rintro (⟨k, s, rfl, opens, h⟩ | ⟨ended, h⟩)
    · obtain ⟨q, s, x, rfl, inner, last⟩ := reads_bind.mp h
      obtain ⟨rfl, rfl⟩ := reads_pure.mp last
      obtain ⟨ends, conditions, chain⟩ := reads_predicate.mp inner
      rw [List.append_nil]
      exact .clause opens chain ends
    · obtain ⟨rfl, rfl⟩ := reads_pure.mp h
      exact .absent ended
  · intro h
    cases h with
    | @clause k p x conditions opens chain ends =>
      refine .inl ⟨k, p, rfl, opens, reads_bind.mpr ⟨p, [], x, (List.append_nil p).symm, ?_, ?_⟩⟩
      · exact reads_predicate.mpr ⟨ends, conditions, chain⟩
      · exact reads_pure.mpr ⟨rfl, rfl⟩
    | absent ended => exact .inr ⟨ended, reads_pure.mpr ⟨rfl, rfl⟩⟩

end Condition

end SqlBridge
