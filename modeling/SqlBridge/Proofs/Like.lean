import SqlBridge.Proofs.Regex
import SqlBridge.Statement.Condition

/-!
# What a LIKE pattern accepts

A pattern accepts whole texts, and its regular expression is searched for in them. The expression
has an anchor at each end at which the pattern has no run of any characters, and every character
that would be an operator is escaped in it, so the search finds something in exactly the texts that
the pattern accepts.
-/

namespace SqlBridge.Like

def escapable : List Char := ['%', '_', '\\']

/-- The pattern accepts the whole text: `%` any run of characters and `_` any one, an escaped
character itself, and every other character itself too, a backslash that escapes nothing
included. -/
inductive Accepts : List Char → List Char → Prop where
  | nil : Accepts [] []
  | anyRun {pattern run text : List Char} (others : Accepts pattern text) :
      Accepts ('%' :: pattern) (run ++ text)
  | anyOne {c : Char} {pattern text : List Char} (others : Accepts pattern text) :
      Accepts ('_' :: pattern) (c :: text)
  | escaped {c : Char} {pattern text : List Char} (escapes : c ∈ escapable)
      (others : Accepts pattern text) : Accepts ('\\' :: c :: pattern) (c :: text)
  | literal {c : Char} {pattern text : List Char} (plain : c ≠ '%' ∧ c ≠ '_')
      (alone : c = '\\' → ∀ d ∈ pattern.head?, d ∉ escapable) (others : Accepts pattern text) :
      Accepts (c :: pattern) (c :: text)

/-! ### Elements of patterns as elements of expressions -/

open Regex (Element Atom parse? parse?_cons)

/-- What matches an element of a pattern in an expression. -/
def Piece.element : Piece → Element
  | .anyRun => .star .any
  | .anyOne => .one .any
  | .literal c => .one (.char c)

def Match (ps : List Piece) (text : List Char) : Prop :=
  Regex.Matches (ps.map Piece.element) [] text []

variable {ps qs : List Piece} {c : Char} {before m after text : List Char}

theorem Piece.not_anchor : ∀ e ∈ ps.map Piece.element, e ≠ .start ∧ e ≠ .finish := by
  intro e listed
  obtain ⟨p, _, rfl⟩ := List.mem_map.mp listed
  cases p <;> simp [Piece.element]

/-- The elements of a pattern match the same wherever the text stands. -/
theorem matches_iff_match :
    Regex.Matches (ps.map Piece.element) before m after ↔ Match ps m :=
  ⟨Regex.matches_of_no_anchor Piece.not_anchor, Regex.matches_of_no_anchor Piece.not_anchor⟩

theorem match_nil : Match [] text ↔ text = [] :=
  Regex.matches_nil

theorem match_append : Match (ps ++ qs) text ↔ ∃ p q, text = p ++ q ∧ Match ps p ∧ Match qs q := by
  rw [Match, List.map_append, Regex.matches_append]
  simp only [matches_iff_match]

theorem match_anyRun : Match [.anyRun] text :=
  Regex.matches_anyRun

theorem match_anyRun_cons :
    Match (.anyRun :: ps) text ↔ ∃ p q, text = p ++ q ∧ Match ps q := by
  rw [← List.singleton_append, match_append]
  simp only [match_anyRun, true_and]

theorem match_anyOne_cons : Match (.anyOne :: ps) text ↔ ∃ c q, text = c :: q ∧ Match ps q := by
  rw [← List.singleton_append, match_append]
  constructor
  · rintro ⟨_, q, rfl, ⟨_, _, rfl, ⟨c, rfl, _⟩, rfl⟩, others⟩
    exact ⟨c, q, rfl, others⟩
  · rintro ⟨c, q, rfl, others⟩
    exact ⟨[c], q, rfl, ⟨[c], [], rfl, ⟨c, rfl, trivial⟩, rfl⟩, others⟩

theorem match_literal_cons : Match (.literal c :: ps) text ↔ ∃ q, text = c :: q ∧ Match ps q := by
  rw [← List.singleton_append, match_append]
  constructor
  · rintro ⟨_, q, rfl, ⟨_, _, rfl, ⟨_, rfl, rfl⟩, rfl⟩, others⟩
    exact ⟨q, rfl, others⟩
  · rintro ⟨q, rfl, others⟩
    exact ⟨[c], q, rfl, ⟨[c], [], rfl, ⟨c, rfl, rfl⟩, rfl⟩, others⟩

/-! ### Patterns and their elements -/

theorem mem_escapable_iff : c ∈ escapable ↔ isEscapable c = true := by
  simp [escapable, isEscapable, or_assoc]

/-- A pattern accepts what its elements match. -/
theorem accepts_iff_match {pattern : List Char} :
    Accepts pattern text ↔ Match (pieces pattern) text := by
  fun_induction pieces pattern generalizing text with
  | case1 =>
    rw [match_nil]
    constructor
    · rintro ⟨⟩
      rfl
    · rintro rfl
      exact .nil
  | case2 rest ih =>
    simp only [match_anyRun_cons, ← ih]
    constructor
    · intro h
      cases h with
      | anyRun others => exact ⟨_, _, rfl, others⟩
      | literal plain => exact absurd rfl plain.1
    · rintro ⟨run, q, rfl, others⟩
      exact .anyRun others
  | case3 rest ih =>
    simp only [match_anyOne_cons, ← ih]
    constructor
    · intro h
      cases h with
      | anyOne others => exact ⟨_, _, rfl, others⟩
      | literal plain => exact absurd rfl plain.2
    · rintro ⟨c, q, rfl, others⟩
      exact .anyOne others
  | case4 c rest escapes ih =>
    have escapes := mem_escapable_iff.mpr escapes
    simp only [match_literal_cons, ← ih]
    constructor
    · intro h
      cases h with
      | escaped _ others => exact ⟨_, rfl, others⟩
      | literal _ alone => exact absurd escapes (alone rfl c rfl)
    · rintro ⟨q, rfl, others⟩
      exact .escaped escapes others
  | case5 c rest other ih =>
    have other : c ∉ escapable := fun escapes => other (mem_escapable_iff.mp escapes)
    simp only [match_literal_cons, ← ih]
    constructor
    · intro h
      cases h with
      | escaped escapes => exact absurd escapes other
      | literal _ _ others => exact ⟨_, rfl, others⟩
    · rintro ⟨q, rfl, others⟩
      refine .literal (by decide) (fun _ d first => ?_) others
      rwa [← Option.some.inj first]
  | case6 c rest run one escape ih =>
    have alone : c = '\\' → ∀ d ∈ rest.head?, d ∉ escapable := by
      rintro rfl d first
      obtain ⟨rest, rfl⟩ := List.head?_eq_some_iff.mp first
      exact absurd rfl (escape d rest rfl)
    simp only [match_literal_cons, ← ih]
    constructor
    · intro h
      cases h with
      | anyRun => exact absurd rfl run
      | anyOne => exact absurd rfl one
      | @escaped d rest => exact absurd rfl (escape d rest rfl)
      | literal _ _ others => exact ⟨_, rfl, others⟩
    · rintro ⟨q, rfl, others⟩
      exact .literal ⟨run, one⟩ alone others

/-! ### Expressions of patterns -/

theorem isPunctuation_of_isSpecial (special : isSpecial c = true) :
    Regex.isPunctuation c = true :=
  List.all_eq_true.mp (by decide) c (List.contains_iff_mem.mp special)

/-- The characters that are escaped are the operators. -/
theorem isOperator_eq_isSpecial : Regex.isOperator c = isSpecial c := by
  rw [Bool.eq_iff_iff, Regex.isOperator, isSpecial, List.contains_iff_mem, List.contains_iff_mem]
  exact List.Perm.mem_iff (by decide)

/-- What is written for an element of a pattern is read as its element of the expression, if no star
is behind it. -/
theorem element?_regex {p : Piece} {cs : List Char} (last : cs.head? ≠ some '*') :
    Regex.element? (p.regex ++ cs) = some (p.element, cs) := by
  cases p with
  | anyRun => rfl
  | anyOne => exact Regex.element?_of_atom? (by decide) rfl last
  | literal c =>
    rw [Piece.regex]
    split
    · next special =>
      have mark := isPunctuation_of_isSpecial special
      exact Regex.element?_of_atom? (by decide) (Regex.atom?_escaped mark) last
    · next other =>
      have plain : Regex.isOperator c = false := by
        rw [isOperator_eq_isSpecial]
        exact Bool.eq_false_iff.mpr other
      refine Regex.element?_of_atom? ⟨?_, ?_⟩ (Regex.atom?_plain plain) last <;>
        rintro rfl <;> cases plain

/-- No star is written but behind a point. -/
theorem head?_regex_ne {p : Piece} {cs : List Char} : (p.regex ++ cs).head? ≠ some '*' := by
  cases p with
  | literal c =>
    rw [Piece.regex]
    split
    · simp
    · next other =>
      intro star
      obtain rfl := Option.some.inj star
      exact other rfl
  | _ => simp [Piece.regex]

/-- What is written for the elements of a pattern is read as their elements of the expression. -/
theorem parse?_regex {cs : List Char} (last : cs.head? ≠ some '*') :
    parse? (ps.flatMap Piece.regex ++ cs) = (parse? cs).map (ps.map Piece.element ++ ·) := by
  induction ps with
  | nil => simp
  | cons p ps ih =>
    have behind : (ps.flatMap Piece.regex ++ cs).head? ≠ some '*' := by
      cases ps with
      | nil => exact last
      | cons q qs =>
        rw [List.flatMap_cons, List.append_assoc]
        exact head?_regex_ne
    rw [List.flatMap_cons, List.append_assoc, parse?_cons (element?_regex behind), ih]
    simp [Function.comp_def]

/-- What stands between the anchors of an expression. -/
def anchored (openStart openEnd : Bool) (inner : List Piece) : List Element :=
  (if openStart then [] else [.start])
    ++ (inner.map Piece.element ++ if openEnd then [] else [.finish])

/-- A pattern with a run of any characters at each open end. -/
def opened (openStart openEnd : Bool) (inner : List Piece) : List Piece :=
  (if openStart then [.anyRun] else []) ++ (inner ++ if openEnd then [.anyRun] else [])

variable {openStart openEnd : Bool}

theorem parse?_anchored :
    parse? ((if openStart then [] else ['^']) ++ ps.flatMap Piece.regex
      ++ if openEnd then [] else ['$']) = some (anchored openStart openEnd ps) := by
  have empty : parse? [] = some [] := by rw [parse?]
  have behind : parse? (ps.flatMap Piece.regex ++ if openEnd then [] else ['$']) =
      some (ps.map Piece.element ++ if openEnd then [] else [.finish]) := by
    cases openEnd with
    | true =>
      rw [if_pos rfl, if_pos rfl, parse?_regex (by decide), empty]
      rfl
    | false =>
      rw [if_neg Bool.false_ne_true, if_neg Bool.false_ne_true, parse?_regex (by decide),
        parse?_cons rfl, empty]
      rfl
  rw [List.append_assoc, anchored]
  cases openStart with
  | true => exact behind
  | false =>
    rw [if_neg Bool.false_ne_true, if_neg Bool.false_ne_true, List.singleton_append,
      parse?_cons rfl, behind]
    rfl

/-- At its end an expression without anchor leaves over what a run of any characters takes. -/
theorem exists_matches_iff_end : (∃ m after, text = m ++ after ∧
      Regex.Matches (ps.map Piece.element ++ if openEnd then [] else [.finish]) before m after) ↔
    Match (ps ++ if openEnd then [.anyRun] else []) text := by
  cases openEnd with
  | true => simp [matches_iff_match, match_append, match_anyRun]
  | false => simp [Regex.matches_append_finish, matches_iff_match]

/-- A search finds what the pattern matches that has a run of any characters in the place of each
missing anchor. -/
theorem exists_matches_iff : (∃ before m after, text = before ++ (m ++ after) ∧
      Regex.Matches (anchored openStart openEnd ps) before m after) ↔
    Match (opened openStart openEnd ps) text := by
  rw [opened, anchored]
  cases openStart with
  | true =>
    rw [if_pos rfl, if_pos rfl, List.nil_append, List.singleton_append, match_anyRun_cons]
    constructor
    · rintro ⟨before, m, after, rfl, found⟩
      exact ⟨before, m ++ after, rfl, exists_matches_iff_end.mp ⟨m, after, rfl, found⟩⟩
    · rintro ⟨before, rest, rfl, others⟩
      obtain ⟨m, after, rfl, found⟩ := exists_matches_iff_end.mpr others
      exact ⟨before, m, after, rfl, found⟩
  | false =>
    rw [if_neg Bool.false_ne_true, if_neg Bool.false_ne_true, List.nil_append,
      List.singleton_append, ← exists_matches_iff_end]
    simp only [Regex.matches_start_cons]
    constructor
    · rintro ⟨_, m, after, rfl, rfl, found⟩
      exact ⟨m, after, rfl, found⟩
    · rintro ⟨m, after, rfl, found⟩
      exact ⟨[], m, after, rfl, rfl, found⟩

/-- A run at an end of the pattern is taken off and leaves the expression open there. -/
theorem exists_toRegex (pattern : String) : ∃ openStart openEnd inner,
    toRegex pattern = String.ofList ((if openStart then [] else ['^'])
      ++ inner.flatMap Piece.regex ++ if openEnd then [] else ['$']) ∧
    ∀ text, Match (pieces pattern.toList) text ↔ Match (opened openStart openEnd inner) text := by
  simp only [toRegex]
  generalize pieces pattern.toList = ps
  by_cases first : ps.head? = some .anyRun
  · obtain ⟨rest, rfl⟩ := List.head?_eq_some_iff.mp first
    by_cases last : rest.getLast? = some .anyRun
    · refine ⟨true, true, rest.dropLast, by simp [last], fun text => ?_⟩
      rw [opened, if_pos rfl, List.dropLast_append_getLast? _ last]
      rfl
    · by_cases alone : rest = []
      · -- a single run is open at both ends, as two runs are
        subst alone
        refine ⟨true, true, [], by simp, fun text => ?_⟩
        have both : Match (opened true true []) text :=
          match_anyRun_cons.mpr ⟨[], text, rfl, match_anyRun⟩
        exact iff_of_true match_anyRun both
      · refine ⟨true, false, rest, by simp [last, alone], fun text => ?_⟩
        simp [opened]
  · by_cases last : ps.getLast? = some .anyRun
    · refine ⟨false, true, ps.dropLast, by simp [first, last], fun text => ?_⟩
      rw [opened, if_pos rfl, if_neg Bool.false_ne_true, List.nil_append,
        List.dropLast_append_getLast? _ last]
    · refine ⟨false, false, ps, by simp [first, last], fun text => ?_⟩
      simp [opened]

/-- A text matches a LIKE pattern exactly if the regular expression of the pattern is found in
it. -/
theorem accepts_iff_finds (pattern text : String) :
    Accepts pattern.toList text.toList ↔ Regex.Finds (toRegex pattern) text := by
  obtain ⟨openStart, openEnd, inner, written, same⟩ := exists_toRegex pattern
  rw [accepts_iff_match, same, ← exists_matches_iff, Regex.Finds, written, String.toList_ofList,
    parse?_anchored]
  simp

end SqlBridge.Like
