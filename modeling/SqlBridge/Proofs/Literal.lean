import Mathlib.Data.List.TakeWhile
import SqlBridge.Literal
import SqlBridge.Proofs.Text.Basic

/-!
# Words that are values

The decimal form of a number is that number, and a colon in front of a name is the placeholder of
that name.
-/

namespace SqlBridge

namespace Literal

theorem isDigit_of_mem_repr {n : Nat} {c : Char} (h : c ∈ n.repr.toList) : c.isDigit = true := by
  rw [Nat.toList_repr] at h
  exact Nat.isDigit_of_mem_toDigits (by omega) (by omega) h

theorem repr_ne_nil (n : Nat) : n.repr.toList ≠ [] := by
  rw [Nat.toList_repr]
  exact Nat.toDigits_ne_nil

theorem ofDigitChars_repr (n : Nat) : Nat.ofDigitChars 10 n.repr.toList 0 = n := by
  rw [Nat.toList_repr]
  exact Nat.ofDigitChars_ten_toDigits

/-- Different numbers have different decimal forms. -/
theorem eq_of_repr_eq {m n : Nat} (same : m.repr = n.repr) : m = n := by
  rw [← ofDigitChars_repr m, same, ofDigitChars_repr]

/-- A word that starts with no letter is none of the words for a value. -/
theorem not_sameWord_of_not_isAlpha {text word : String} {c d : Char}
    (first : text.toList.head? = some c) (plain : c.isAlpha = false)
    (other : word.toList.head? = some d) (letter : d.isAlpha = true) :
    Text.sameWord text word = false := by
  refine Bool.eq_false_iff.mpr fun same => ?_
  have heads := congrArg List.head? (Text.sameWord_iff_map_eq.mp same)
  rw [List.head?_map, List.head?_map, first, other] at heads
  have image : c.toUpper = d.toUpper := Option.some.inj heads
  rw [Text.isAlpha_eq, Bool.or_eq_false_iff] at plain
  rw [Text.toUpper_eq_self plain.2] at image
  rcases Text.toUpper_eq_or d with fixed | ⟨_, capital⟩
  · rw [← fixed, ← image, Text.isAlpha_eq, plain.1, plain.2] at letter
    cases letter
  · rw [← image, plain.1] at capital
    cases capital

theorem isAlpha_of_isDigit {c : Char} (digit : c.isDigit = true) : c.isAlpha = false := by
  have bounds := Text.isDigit_iff.mp digit
  rw [Text.isAlpha_eq, Bool.or_eq_false_iff, Bool.eq_false_iff, Bool.eq_false_iff, Ne, Ne,
    Text.isUpper_iff, Text.isLower_iff]
  omega

/-- Digits, perhaps after a sign, are an integer. -/
theorem number?_of_digits {cs ds : List Char} {negative : Bool}
    (split : splitSign cs = (negative, ds)) (filled : ds ≠ [])
    (digits : ∀ c ∈ ds, c.isDigit = true) : number? cs = some (integer negative ds) := by
  have pointless : ∀ d ∈ ds, decide (d ≠ '.') = true := by
    intro d hd
    rw [decide_eq_true_eq]
    rintro rfl
    exact absurd (digits _ hd) (by decide)
  have whole : areDigits ds = true := by
    rw [areDigits, List.all_eq_true.mpr digits, List.isEmpty_eq_false_iff.mpr filled]
    rfl
  simp only [number?, split]
  rw [List.dropWhile_eq_nil_iff.mpr pointless, List.takeWhile_eq_self_iff.mpr pointless]
  simp only [whole, if_true]

/-- A word that is a number denotes it, as its first character tells. -/
theorem ofWord_of_number? {word : String} {c : Char} {v : Value}
    (first : word.toList.head? = some c) (plain : c.isAlpha = false) (apart : c ≠ ':')
    (number : number? word.toList = some v) : ofWord word = v := by
  have bare : placeholder? word = none := by
    rw [placeholder?]
    split
    · next same =>
      rw [same, List.head?_cons, Option.some.injEq] at first
      exact absurd first.symm apart
    · rfl
  have other : ∀ w ∈ ["true", "false", "null"], Text.sameWord word w = false := by
    intro w listed
    simp only [List.mem_cons, List.not_mem_nil, or_false] at listed
    rcases listed with rfl | rfl | rfl
    · exact not_sameWord_of_not_isAlpha first plain (d := 't') (by decide) (by decide)
    · exact not_sameWord_of_not_isAlpha first plain (d := 'f') (by decide) (by decide)
    · exact not_sameWord_of_not_isAlpha first plain (d := 'n') (by decide) (by decide)
  rw [ofWord, bare]
  simp only [other "true" (by simp), other "false" (by simp), other "null" (by simp),
    Bool.false_eq_true, if_false, number, Option.getD_some]

/-- What starts with a letter is no number. -/
theorem number?_of_isAlpha {c : Char} {cs : List Char} (letter : c.isAlpha = true) :
    number? (c :: cs) = none := by
  have unsigned : splitSign (c :: cs) = (false, c :: cs) := by
    rw [splitSign.eq_def]
    split
    · next same =>
      obtain ⟨rfl, _⟩ := List.cons.inj same
      exact absurd letter (by decide)
    · next same =>
      obtain ⟨rfl, _⟩ := List.cons.inj same
      exact absurd letter (by decide)
    · rfl
  have apart : c ≠ '.' := by
    rintro rfl
    exact absurd letter (by decide)
  have other : c.isDigit = false := by
    refine Bool.eq_false_iff.mpr fun digit => ?_
    rw [isAlpha_of_isDigit digit] at letter
    cases letter
  have whole : areDigits ((c :: cs).takeWhile (· ≠ '.')) = false := by
    have starts : (c :: cs).takeWhile (· ≠ '.') = c :: cs.takeWhile (· ≠ '.') :=
      List.takeWhile_cons_of_pos (by simpa using apart)
    rw [starts, areDigits, List.all_cons, other, Bool.false_and, Bool.and_false]
  simp only [number?, unsigned, whole, Bool.false_and, Bool.false_eq_true, if_false]
  split <;> rfl

/-- A word that starts with a letter is a string, unless it is one of the words for a value. -/
theorem ofWord_of_isAlpha {word : String} {c : Char} (first : word.toList.head? = some c)
    (letter : c.isAlpha = true)
    (other : ∀ w ∈ ["true", "false", "null"], Text.sameWord word w = false) :
    ofWord word = .str word := by
  obtain ⟨cs, text⟩ : ∃ cs, word.toList = c :: cs := List.head?_eq_some_iff.mp first
  have bare : placeholder? word = none := by
    rw [placeholder?]
    split
    · next same =>
      rw [same, List.head?_cons, Option.some.injEq] at first
      exact absurd (first ▸ letter) (by decide)
    · rfl
  rw [ofWord, bare]
  simp only [other "true" (by simp), other "false" (by simp), other "null" (by simp),
    Bool.false_eq_true, if_false]
  rw [text, number?_of_isAlpha letter, Option.getD_none]

theorem integer_repr {negative : Bool} {n : Nat} {i : Int}
    (signed : (if negative then -(n : Int) else n) = i) (bounds : -2 ^ 63 ≤ i ∧ i < 2 ^ 63) :
    integer negative n.repr.toList = .int (.ofInt i) := by
  rw [integer, ofDigitChars_repr]
  simp only [signed, if_pos bounds]

/-- The decimal form of a number that 64 signed bits hold is that number. -/
theorem ofWord_repr {n : Nat} (h : n < 2 ^ 63) : ofWord n.repr = .int (.ofInt n) := by
  have digits : ∀ c ∈ n.repr.toList, c.isDigit = true := fun c hc => isDigit_of_mem_repr hc
  obtain ⟨c, cs, text⟩ := List.exists_cons_of_ne_nil (repr_ne_nil n)
  have digit : c.isDigit = true := digits c (by rw [text]; exact List.mem_cons_self)
  have unsigned : splitSign n.repr.toList = (false, n.repr.toList) := by
    rw [text, splitSign.eq_def]
    split
    · next same =>
      obtain ⟨rfl, _⟩ := List.cons.inj same
      exact absurd digit (by decide)
    · next same =>
      obtain ⟨rfl, _⟩ := List.cons.inj same
      exact absurd digit (by decide)
    · rfl
  have apart : c ≠ ':' := by
    rintro rfl
    exact absurd digit (by decide)
  refine ofWord_of_number? (by rw [text, List.head?_cons]) (isAlpha_of_isDigit digit) apart ?_
  rw [number?_of_digits unsigned (repr_ne_nil n) digits,
    integer_repr (i := (n : Int)) rfl (by omega)]

/-- A minus in front of a decimal form is the negative number. -/
theorem ofWord_minus_repr {n : Nat} (h : n ≤ 2 ^ 63) :
    ofWord ("-" ++ n.repr) = .int (.ofInt (-n)) := by
  have text : ("-" ++ n.repr).toList = '-' :: n.repr.toList := by
    rw [String.toList_append]
    rfl
  have digits : ∀ c ∈ n.repr.toList, c.isDigit = true := fun c hc => isDigit_of_mem_repr hc
  have signed : splitSign ('-' :: n.repr.toList) = (true, n.repr.toList) := rfl
  refine ofWord_of_number? (by rw [text, List.head?_cons]) (by decide) (by decide) ?_
  rw [text, number?_of_digits signed (repr_ne_nil n) digits,
    integer_repr (i := -(n : Int)) rfl (by omega)]

/-- Every integer is what its decimal form denotes. -/
theorem ofWord_toInt_repr (i : Int64) : ofWord i.toInt.repr = .int i := by
  have low := i.le_toInt
  have high := i.toInt_lt
  cases same : i.toInt with
  | ofNat n =>
    have form : (Int.ofNat n).repr = n.repr := rfl
    rw [same, Int.ofNat_eq_natCast] at high
    rw [form, ofWord_repr (by omega), ← Int.ofNat_eq_natCast, ← same, Int64.ofInt_toInt]
  | negSucc n =>
    have form : (Int.negSucc n).repr = "-" ++ (n + 1).repr := rfl
    have whole : -((n + 1 : Nat) : Int) = i.toInt := by rw [same]; rfl
    rw [form, ofWord_minus_repr (by omega), whole, Int64.ofInt_toInt]

/-- A colon in front of a name is its placeholder. -/
theorem ofWord_placeholder {name : String} (h : name.toList ≠ []) :
    ofWord (":" ++ name) = .placeholder name := by
  obtain ⟨c, cs, split⟩ := List.exists_cons_of_ne_nil h
  have text : (":" ++ name).toList = ':' :: c :: cs := by
    rw [String.toList_append, split]
    rfl
  have same : String.ofList (c :: cs) = name := by rw [← split, String.ofList_toList]
  rw [ofWord, placeholder?, text]
  simp only [same]

/-- The word of a placeholder is its name with a colon in front. -/
theorem eq_of_placeholder? {word name : String} (h : placeholder? word = some name) :
    word = ":" ++ name := by
  rw [placeholder?] at h
  split at h
  · next c cs text =>
    cases h
    refine String.toList_inj.mp ?_
    simp [text]
  · cases h

/-- No number is a placeholder. -/
theorem isPlaceholder_of_number? {cs : List Char} {v : Value} (h : number? cs = some v) :
    v.isPlaceholder = false := by
  have integer_plain : ∀ negative digits, (integer negative digits).isPlaceholder = false := by
    intro negative digits
    rw [integer]
    generalize (if negative then -(Nat.ofDigitChars 10 digits 0 : Int) else _) = i
    by_cases held : -2 ^ 63 ≤ i ∧ i < 2 ^ 63
    · rw [if_pos held]
      rfl
    · rw [if_neg held]
      rfl
  simp only [number?] at h
  split at h <;> split at h
  · cases h
    exact integer_plain _ _
  · cases h
  · cases h
    rfl
  · cases h

end Literal

/-- Only a word can be a placeholder. -/
theorem Token.word_of_literal_eq_placeholder {t : Token} {name : String}
    (h : t.literal = .placeholder name) :
    ∃ word, t = .word word ∧ Literal.placeholder? word = some name := by
  cases t with
  | word text =>
    refine ⟨text, rfl, ?_⟩
    rw [literal, Literal.ofWord] at h
    split at h
    · rename_i found
      rw [found, Value.placeholder.inj h]
    · split at h
      · cases h
      split at h
      · cases h
      split at h
      · cases h
      cases number : Literal.number? text.toList with
      | none =>
        rw [number] at h
        cases h
      | some v =>
        rw [number, Option.getD_some] at h
        have plain := Literal.isPlaceholder_of_number? number
        rw [h] at plain
        cases plain
  | _ => cases h

theorem Params.countOf_repr {params : Params} {n : Nat} (h : n < 2 ^ 63) :
    params.countOf (.word n.repr) = .ok (.ofNat n) := by
  have value : params.valueOf (.word n.repr) = .ok (.int (.ofInt n)) := by
    rw [valueOf, Token.literal, Literal.ofWord_repr h]
    rfl
  have whole : (Int64.ofInt n).toInt = n := Int64.toInt_ofInt_of_le (by omega) (by omega)
  rw [countOf, value]
  simp [Bind.bind, Except.bind, whole]

end SqlBridge
