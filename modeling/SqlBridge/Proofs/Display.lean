import SqlBridge.Proofs.Literal
import SqlBridge.Proofs.Statement.Value
import SqlBridge.Proofs.Token.Printing

/-!
# Displayed values

Displaying a value, cutting a text into tokens and casting a word are three pieces of code. They fit
together: what is displayed is one token, and the token gives the value again. The other way round,
the words that give an integer are the decimal numbers that 64 signed bits hold, and those of them
that are not negative are counts.
-/

namespace SqlBridge

namespace Literal

/-- The integer that characters denote: digits, one at least, perhaps with one sign in front. -/
inductive Denotes : List Char → Int → Prop where
  | unsigned {ds : List Char} (filled : ds ≠ []) (digits : ∀ d ∈ ds, d.isDigit = true) :
      Denotes ds (Nat.ofDigitChars 10 ds 0)
  | plus {ds : List Char} (filled : ds ≠ []) (digits : ∀ d ∈ ds, d.isDigit = true) :
      Denotes ('+' :: ds) (Nat.ofDigitChars 10 ds 0)
  | minus {ds : List Char} (filled : ds ≠ []) (digits : ∀ d ∈ ds, d.isDigit = true) :
      Denotes ('-' :: ds) (-(Nat.ofDigitChars 10 ds 0 : Int))

variable {cs ds : List Char} {n : Int} {i : Int64} {word : String}

/-- A digit is no sign. -/
theorem splitSign_of_digits (digits : ∀ d ∈ ds, d.isDigit = true) :
    splitSign ds = (false, ds) := by
  rw [splitSign.eq_def]
  split
  · exact absurd (digits '-' List.mem_cons_self) (by decide)
  · exact absurd (digits '+' List.mem_cons_self) (by decide)
  · rfl

/-- The sign is split off first, and the digits are read then. -/
theorem denotes_iff :
    Denotes cs n ↔ ∃ negative ds, splitSign cs = (negative, ds) ∧ ds ≠ [] ∧
      (∀ d ∈ ds, d.isDigit = true) ∧
      n = if negative then -(Nat.ofDigitChars 10 ds 0 : Int) else Nat.ofDigitChars 10 ds 0 := by
  constructor
  · intro h
    cases h with
    | unsigned filled digits => exact ⟨false, cs, splitSign_of_digits digits, filled, digits, rfl⟩
    | @plus ds filled digits => exact ⟨false, ds, rfl, filled, digits, rfl⟩
    | @minus ds filled digits => exact ⟨true, ds, rfl, filled, digits, rfl⟩
  · rintro ⟨negative, ds, split, filled, digits, rfl⟩
    rw [splitSign.eq_def] at split
    split at split <;> cases split
    · exact .minus filled digits
    · exact .plus filled digits
    · exact .unsigned filled digits

/-- What denotes an integer starts with a digit or a sign. -/
theorem Denotes.head (h : Denotes cs n) :
    ∃ c, cs.head? = some c ∧ c.isAlpha = false ∧ c ≠ ':' := by
  cases h with
  | unsigned filled digits =>
    refine ⟨cs.head filled, List.head?_eq_some_head filled, ?_, ?_⟩
    · exact isAlpha_of_isDigit (digits _ (List.head_mem filled))
    · intro colon
      exact absurd (digits _ (List.head_mem filled)) (by rw [colon]; decide)
  | plus => exact ⟨'+', rfl, by decide, by decide⟩
  | minus => exact ⟨'-', rfl, by decide, by decide⟩

/-- Digits are the integer that they denote, if 64 signed bits hold it. -/
theorem integer_eq_int_iff {negative : Bool} :
    integer negative ds = .int i ↔
      i.toInt = if negative then -(Nat.ofDigitChars 10 ds 0 : Int)
        else Nat.ofDigitChars 10 ds 0 := by
  have low := i.le_toInt
  have high := i.toInt_lt
  rw [integer]
  generalize (if negative = true then -(Nat.ofDigitChars 10 ds 0 : Int)
    else (Nat.ofDigitChars 10 ds 0 : Int)) = m
  constructor
  · intro h
    split at h
    · next held => cases h; exact Int64.toInt_ofInt_of_le held.1 held.2
    · cases h
  · rintro rfl
    rw [if_pos ⟨low, high⟩, Int64.ofInt_toInt]

/-- The words with a point are floats, so an integer is digits throughout. -/
theorem number?_eq_int_iff : number? cs = some (.int i) ↔ Denotes cs i.toInt := by
  rw [denotes_iff]
  constructor
  · intro h
    rcases split : splitSign cs with ⟨negative, ds⟩
    simp only [number?, split] at h
    split at h
    · next pointless =>
      have whole : ds.takeWhile (· ≠ '.') = ds := by
        conv => rhs; rw [← List.takeWhile_append_dropWhile (p := (· ≠ '.')) (l := ds)]
        rw [pointless, List.append_nil]
      rw [whole] at h
      split at h
      · next digits =>
        obtain ⟨filled, all⟩ : ds ≠ [] ∧ ∀ d ∈ ds, d.isDigit = true := by
          simpa [areDigits] using digits
        exact ⟨negative, ds, rfl, filled, all, integer_eq_int_iff.mp (Option.some.inj h)⟩
      · cases h
    · split at h <;> cases h
  · rintro ⟨negative, ds, split, filled, digits, whole⟩
    rw [number?_of_digits split filled digits, integer_eq_int_iff.mpr whole]

/-- The words that are integers are those that denote one. -/
theorem ofWord_eq_int_iff : ofWord word = .int i ↔ Denotes word.toList i.toInt := by
  rw [← number?_eq_int_iff]
  constructor
  · intro h
    rw [ofWord] at h
    split at h
    · cases h
    · split at h
      · cases h
      split at h
      · cases h
      split at h
      · cases h
      cases number : number? word.toList with
      | none => rw [number] at h; cases h
      | some v => rw [number, Option.getD_some] at h; rw [h]
  · intro number
    obtain ⟨c, first, plain, apart⟩ := (number?_eq_int_iff.mp number).head
    exact ofWord_of_number? first plain apart number

end Literal

open Literal

/-- The integers of words are the decimal numbers that 64 signed bits hold. -/
theorem exists_literal_eq_int_iff {word : String} {n : Int} :
    (∃ i : Int64, i.toInt = n ∧ (Token.word word).literal = .int i) ↔
      Denotes word.toList n ∧ -2 ^ 63 ≤ n ∧ n < 2 ^ 63 := by
  constructor
  · rintro ⟨i, rfl, literal⟩
    exact ⟨ofWord_eq_int_iff.mp literal, i.le_toInt, i.toInt_lt⟩
  · rintro ⟨denotes, low, high⟩
    have whole : (Int64.ofInt n).toInt = n := Int64.toInt_ofInt_of_le low high
    exact ⟨.ofInt n, whole, ofWord_eq_int_iff.mpr (by rwa [whole])⟩

namespace Params

variable {params : Params} {t : Token} {word : String} {i : Int64} {c : UInt64}

/-- A count is an integer that is not negative. -/
theorem countOf_eq_ok_iff :
    params.countOf t = .ok c ↔
      ∃ i : Int64, params.valueOf t = .ok (.int i) ∧ i.toInt = c.toNat := by
  rw [countOf]
  cases value : params.valueOf t with
  | error e => simp [Bind.bind, Except.bind]
  | ok v =>
    cases v with
    | int i =>
      have high := i.toInt_lt
      have small := c.toNat_lt
      simp only [Bind.bind, Except.bind, Except.ok.injEq, Value.int.injEq, exists_eq_left']
      split
      · next negative => simp; omega
      · next counts =>
        have fits : i.toInt.toNat < UInt64.size := by
          change _ < 2 ^ 64
          omega
        rw [Except.ok.injEq, ← UInt64.toNat_inj, UInt64.toNat_ofNat_of_lt' fits]
        omega
    | _ => simp [Bind.bind, Except.bind]

/-- An integer is written in a word or bound to the name of a placeholder. -/
theorem valueOf_word_eq_int_iff :
    params.valueOf (.word word) = .ok (.int i) ↔ Denotes word.toList i.toInt ∨
      ∃ name, placeholder? word = some name ∧ params.get? name = some (.int i) := by
  rw [← ofWord_eq_int_iff]
  change params.bind (ofWord word) = _ ↔ _
  cases named : placeholder? word with
  | some name =>
    have literal : ofWord word = .placeholder name := by rw [ofWord, named]
    rw [literal, Params.bind]
    cases found : params.get? name with
    | none => simp [found]
    | some v => cases v <;> simp [found, Value.isPlaceholder]
  | none =>
    have plain : (ofWord word).isPlaceholder = false := by
      cases literal : ofWord word with
      | placeholder name =>
        obtain ⟨_, same, found⟩ :=
          Token.word_of_literal_eq_placeholder (t := .word word) literal
        cases same
        rw [named] at found
        cases found
      | _ => rfl
    rw [bind_of_plain plain]
    simp

/-- The counts of words are the integers among them that are not negative; a placeholder is the
count that is bound to it. -/
theorem countOf_word_eq_ok_iff :
    params.countOf (.word word) = .ok c ↔ (Denotes word.toList c.toNat ∧ c.toNat < 2 ^ 63) ∨
      ∃ name i, placeholder? word = some name ∧ params.get? name = some (.int i) ∧
        i.toInt = c.toNat := by
  simp only [countOf_eq_ok_iff, valueOf_word_eq_int_iff]
  constructor
  · rintro ⟨i, denotes | ⟨name, named, found⟩, same⟩
    · have high := i.toInt_lt
      exact .inl ⟨same ▸ denotes, by omega⟩
    · exact .inr ⟨name, i, named, found, same⟩
  · rintro (⟨denotes, high⟩ | ⟨name, i, named, found, same⟩)
    · have whole : (Int64.ofInt c.toNat).toInt = c.toNat :=
        Int64.toInt_ofInt_of_le (by omega) (by omega)
      exact ⟨.ofInt c.toNat, .inl (by rwa [whole]), whole⟩
    · exact ⟨i, .inr ⟨name, named, found⟩, same⟩

end Params

namespace Value

variable {v : Value}

/-- The values that statements can write: all but floats, and of the placeholders those whose name
is a run of characters of words. -/
def IsWritten : Value → Prop
  | .float _ => False
  | .placeholder name => (Token.word name).IsLexeme
  | _ => True

/-- The decimal form of an integer is a word. -/
theorem isLexeme_repr (n : Int) : (Token.word n.repr).IsLexeme := by
  have digits : ∀ m : Nat, ∀ c ∈ m.repr.toList, Token.isWordChar c = true := by
    intro m c listed
    refine Token.isWordChar_of_isAlphanum ?_
    rw [Text.isAlphanum_eq, isDigit_of_mem_repr listed, Bool.or_true]
  cases n with
  | ofNat m => exact ⟨repr_ne_nil m, digits m⟩
  | negSucc m =>
    have text : (Int.negSucc m).repr.toList = '-' :: (m + 1).repr.toList := by
      change ("-" ++ (m + 1).repr).toList = _
      rw [String.toList_append]
      rfl
    refine ⟨by simp [text], ?_⟩
    rw [text, List.forall_mem_cons]
    exact ⟨by decide, digits (m + 1)⟩

/-- A written value is displayed as the text of a token that gives it. -/
theorem exists_written_eq_display (written : v.IsWritten) :
    ∃ t : Token, t.IsLexeme ∧ String.ofList t.written = v.display ∧ t.literal = v := by
  cases v with
  | null => exact ⟨.word "NULL", by decide, by decide, by decide⟩
  | bool b => cases b; exacts [⟨.word "false", by decide, by decide, by decide⟩,
      ⟨.word "true", by decide, by decide, by decide⟩]
  | int i =>
    exact ⟨.word i.toInt.repr, isLexeme_repr i.toInt, String.ofList_toList, ofWord_toInt_repr i⟩
  | float x => exact written.elim
  | str s => exact ⟨.quoted s, trivial, rfl, rfl⟩
  | placeholder name =>
    obtain ⟨filled, all⟩ := written
    have text : (":" ++ name).toList = ':' :: name.toList := by
      rw [String.toList_append]
      rfl
    refine ⟨.word (":" ++ name), ⟨by simp [text], ?_⟩, String.ofList_toList,
      ofWord_placeholder filled⟩
    rw [text, List.forall_mem_cons]
    exact ⟨by decide, all⟩

/-- A written value is displayed as one token, which gives it. -/
theorem exists_tokenize_display (written : v.IsWritten) :
    ∃ t : Token, Token.tokenize v.display = .ok [t] ∧ t.literal = v := by
  obtain ⟨t, lexeme, display, literal⟩ := exists_written_eq_display written
  refine ⟨t, Token.tokenize_eq_ok_iff.mpr ?_, literal⟩
  have scans : Token.Scans t.written [t] [] :=
    Token.scans_written lexeme (by simp [Token.Delimited])
  rw [← display, String.toList_ofList, scans.scan_eq]

end Value

/-- Displaying and casting are inverse. What is displayed is one token that gives the value again. A
word gives an integer exactly if it denotes it and 64 signed bits hold it, and it gives a count
exactly if the integer is not negative moreover; a placeholder gives the count that is bound to
it. -/
theorem display_casts_back :
    (∀ v : Value, v.IsWritten →
      ∃ t : Token, Token.tokenize v.display = .ok [t] ∧ t.literal = v) ∧
    (∀ (word : String) (n : Int),
      (∃ i : Int64, i.toInt = n ∧ (Token.word word).literal = .int i) ↔
        Denotes word.toList n ∧ -2 ^ 63 ≤ n ∧ n < 2 ^ 63) ∧
    ∀ (params : Params) (word : String) (c : UInt64),
      params.countOf (.word word) = .ok c ↔ (Denotes word.toList c.toNat ∧ c.toNat < 2 ^ 63) ∨
        ∃ name i, placeholder? word = some name ∧ params.get? name = some (.int i) ∧
          i.toInt = c.toNat :=
  ⟨fun _ => Value.exists_tokenize_display, fun _ _ => exists_literal_eq_int_iff,
    fun _ _ _ => Params.countOf_word_eq_ok_iff⟩

theorem display_casts_back_scalars :
    (∃ t : Token, Token.tokenize "'it''s'" = .ok [t] ∧ t.literal = .str "it's") ∧
    (∃ t : Token, Token.tokenize ":from" = .ok [t] ∧ t.literal = .placeholder "from") ∧
    ∃ t : Token, Token.tokenize "-9223372036854775808" = .ok [t] ∧
      t.literal = .int (-9223372036854775808) := by
  have text : (Value.str "it's").display = "'it''s'" := by decide
  have name : (Token.word "from").IsLexeme := by decide
  have least : (Value.int (-9223372036854775808)).display = "-9223372036854775808" := by decide
  exact ⟨text ▸ display_casts_back.1 (.str "it's") trivial,
    display_casts_back.1 (.placeholder "from") name,
    least ▸ display_casts_back.1 (.int (-9223372036854775808)) trivial⟩

end SqlBridge
