import SqlBridge.Token.Lexer

/-!
# The tokens that texts have

A word of a text is a run of word characters and a symbol a run of symbol characters; quoted texts
and identifiers hold any characters.
-/

namespace SqlBridge.Token

/-- A word or a symbol consists of characters of its class, one at least. -/
def IsLexeme : Token → Prop
  | .word text => text.toList ≠ [] ∧ ∀ c ∈ text.toList, isWordChar c = true
  | .symbol text => text.toList ≠ [] ∧ ∀ c ∈ text.toList, isSymbolChar c = true
  | _ => True

instance : DecidablePred IsLexeme
  | .word text =>
    decidable_of_iff (text.toList ≠ [] ∧ text.toList.all isWordChar = true) (by simp [IsLexeme])
  | .symbol text =>
    decidable_of_iff (text.toList ≠ [] ∧ text.toList.all isSymbolChar = true) (by simp [IsLexeme])
  | .leftParen | .rightParen | .comma | .semicolon | .quoted _ | .identifier _ => isTrue trivial

theorem isLexeme_of_punctuation? {c : Char} {t : Token} (h : punctuation? c = some t) :
    t.IsLexeme := by
  unfold punctuation? at h
  split at h <;> cases h <;> trivial

theorem isLexeme_of_readEnclosed {quote : Char} {rest after : List Char} {t : Token}
    (h : readEnclosed quote rest = .ok (t, after)) : t.IsLexeme := by
  unfold readEnclosed at h
  split at h
  · cases h
  · split at h
    · split at h
      · cases h
      · cases h; trivial
    · split at h <;> cases h <;> trivial

theorem mem_cons_takeWhile {p : Char → Bool} {c : Char} {rest : List Char} (hc : p c = true) :
    ∀ d ∈ c :: rest.takeWhile p, p d = true := by
  intro d hd
  rcases List.mem_cons.mp hd with rfl | hd
  · exact hc
  · exact List.all_eq_true.mp List.all_takeWhile d hd

theorem isLexeme_of_readWord {c : Char} {rest after : List Char} {t : Token}
    (hc : isWordChar c = true) (h : readWord c rest = .ok (t, after)) : t.IsLexeme := by
  unfold readWord at h
  dsimp only at h
  split at h
  · split at h
    · cases h
    · cases h; trivial
  · cases h
    refine ⟨by simp, ?_⟩
    rw [String.toList_ofList]
    exact mem_cons_takeWhile hc

theorem isLexeme_of_readToken {c : Char} {rest after : List Char} {t : Token}
    (visible : Text.isBlank c = false) (h : readToken c rest = .ok (t, after)) : t.IsLexeme := by
  unfold readToken at h
  split at h
  · next mark => cases h; exact isLexeme_of_punctuation? mark
  · next unmarked =>
    split at h
    · split at h
      · cases h
      · cases h; trivial
    · next single =>
      split at h
      · exact isLexeme_of_readEnclosed h
      · next double =>
        split at h
        · next symbol =>
          cases h
          refine ⟨by simp, ?_⟩
          rw [String.toList_ofList]
          exact mem_cons_takeWhile symbol
        · next letter =>
          refine isLexeme_of_readWord ?_ h
          simp_all [isWordChar, isQuote, isNameQuote]

theorem isLexeme_of_scan {cs : List Char} {ts : List Token} (h : scan cs = .ok ts) :
    ∀ t ∈ ts, t.IsLexeme := by
  fun_induction scan cs generalizing ts with
  | case1 => cases h; simp
  | case2 c rest blank ih => exact ih h
  | case3 => cases h
  | case4 c rest visible t after read _ ih =>
    cases others : scan after with
    | error e => rw [others] at h; cases h
    | ok us =>
      rw [others] at h
      cases h
      intro u hu
      rcases List.mem_cons.mp hu with rfl | hu
      · exact isLexeme_of_readToken (by simpa using visible) read
      · exact ih others u hu

/-- The tokens of a text are those of its characters, with the fault as the cause of the error. -/
theorem tokenize_eq (text : String) :
    tokenize text = (scan text.toList).mapError .malformedClause := by
  unfold tokenize
  cases scan text.toList <;> rfl

theorem tokenize_eq_ok_iff {text : String} {ts : List Token} :
    tokenize text = .ok ts ↔ scan text.toList = .ok ts := by
  rw [tokenize_eq]
  cases scan text.toList with
  | error fault => constructor <;> intro h <;> cases h
  | ok us => constructor <;> intro h <;> cases h <;> rfl

/-- The tokens of a text are lexemes. -/
theorem isLexeme_of_tokenize {text : String} {ts : List Token} (h : tokenize text = .ok ts) :
    ∀ t ∈ ts, t.IsLexeme :=
  isLexeme_of_scan (tokenize_eq_ok_iff.mp h)

end SqlBridge.Token
