import SqlBridge.Json.Parser
import SqlBridge.Json.Printer
import SqlBridge.Proofs.Literal
import SqlBridge.Proofs.Text.Basic

/-!
# The text of scalars

The text of a scalar that is no string is a run of characters that cannot end in the middle. An
integer that 64 bits hold is read back from it whatever is done about floats.
-/

namespace SqlBridge.Json

variable {c : Char} {float? : Numeral → Option Binary64}

/-! ### Characters -/

theorem isScalarChar_of_isDigit (h : c.isDigit = true) : isScalarChar c = true := by
  have apart : c ≠ ' ' ∧ c ≠ '\n' ∧ c ≠ '\r' ∧ c ≠ '\t' ∧ c ≠ '"' ∧ c ≠ '[' ∧ c ≠ ']' ∧
      c ≠ '\x7b' ∧ c ≠ '\x7d' ∧ c ≠ ',' ∧ c ≠ ':' := by
    refine ⟨?_, ?_, ?_, ?_, ?_, ?_, ?_, ?_, ?_, ?_, ?_⟩ <;> rintro rfl <;> revert h <;> decide
  have unmarked : punctuation? c = none := by
    simp only [punctuation?]
    split <;> simp_all
  simp [isScalarChar, isSpace, unmarked, apart]

def ScalarChars (cs : List Char) : Prop :=
  ∀ c ∈ cs, isScalarChar c = true

/-- The text is the text of a scalar, as far as its characters tell. -/
def ScalarText (s : String) : Prop :=
  s.toList ≠ [] ∧ ScalarChars s.toList

instance (cs : List Char) : Decidable (ScalarChars cs) :=
  decidable_of_iff (cs.all isScalarChar = true) List.all_eq_true

instance (s : String) : Decidable (ScalarText s) :=
  inferInstanceAs (Decidable (_ ∧ _))

theorem scalarChars_of_digits {cs : List Char} (digits : ∀ c ∈ cs, c.isDigit = true) :
    ScalarChars cs :=
  fun c h => isScalarChar_of_isDigit (digits c h)

theorem scalarText_ofList {cs : List Char} (some : cs ≠ []) (all : ScalarChars cs) :
    ScalarText (String.ofList cs) := by
  rw [ScalarText, String.toList_ofList]
  exact ⟨some, all⟩

theorem ScalarText.append {s t : String} (first : ScalarText s) (second : ScalarChars t.toList) :
    ScalarText (s ++ t) := by
  rw [ScalarText, String.toList_append]
  exact ⟨List.append_ne_nil_of_left_ne_nil first.1 _, List.forall_mem_append.mpr ⟨first.2, second⟩⟩

theorem scalarText_repr (n : Nat) : ScalarText n.repr :=
  ⟨Literal.repr_ne_nil n, scalarChars_of_digits fun _ h => Literal.isDigit_of_mem_repr h⟩

theorem scalarText_int (i : Int) : ScalarText i.repr := by
  cases i with
  | ofNat n => exact scalarText_repr n
  | negSucc n =>
    have sign : ScalarText "-" := by decide
    exact sign.append (scalarText_repr (n + 1)).2

section Layout

open Binary64

variable {digits : List Char} {k : Int}

theorem scalarText_inPlace (some : digits ≠ []) (all : ∀ c ∈ digits, c.isDigit = true) :
    ScalarText (numberLayout.inPlace digits k) := by
  have zeros : ∀ n, ∀ c ∈ List.replicate n '0', c.isDigit = true := by
    intro n c h
    rw [List.eq_of_mem_replicate h]
    rfl
  unfold Layout.inPlace
  split
  · have start : ScalarText "0." := by decide
    refine start.append ?_
    rw [String.toList_ofList]
    exact scalarChars_of_digits (List.forall_mem_append.mpr ⟨zeros _, all⟩)
  · simp only
    split
    · have whole : ScalarText (String.ofList
          (digits ++ List.replicate (k.toNat + 1 - digits.length) '0')) :=
        scalarText_ofList (List.append_ne_nil_of_left_ne_nil some _)
          (scalarChars_of_digits (List.forall_mem_append.mpr ⟨all, zeros _⟩))
      exact whole.append (by decide)
    · have whole : ScalarText (String.ofList (digits.take (k.toNat + 1))) :=
        scalarText_ofList (by simp [some])
          (scalarChars_of_digits fun c h => all c (List.mem_of_mem_take h))
      refine (whole.append (t := ".") (by decide)).append ?_
      rw [String.toList_ofList]
      exact scalarChars_of_digits fun c h => all c (List.mem_of_mem_drop h)

theorem scalarText_scientific (some : digits ≠ []) (all : ∀ c ∈ digits, c.isDigit = true) :
    ScalarText (scientific digits k) := by
  have first : ScalarText (String.ofList (digits.take 1)) :=
    scalarText_ofList (by simp [some])
      (scalarChars_of_digits fun c h => all c (List.mem_of_mem_take h))
  have fraction : ScalarChars (String.ofList (digits.drop 1)).toList := by
    rw [String.toList_ofList]
    exact scalarChars_of_digits fun c h => all c (List.mem_of_mem_drop h)
  have point : ScalarText "." := by decide
  have middle : ScalarChars
      (if (digits.drop 1).isEmpty then "" else "." ++ String.ofList (digits.drop 1)).toList := by
    split
    · decide
    · exact (point.append fraction).2
  have sign : ScalarChars (if k < 0 then "e-" else "e+").toList := by
    split <;> decide
  unfold scientific
  exact ((first.append middle).append sign).append (scalarText_repr _).2

theorem scalarText_floatText (x : Binary64) : ScalarText (floatText x) := by
  cases x with
  | nan | infinity =>
    have null : ScalarText "null" := by decide
    exact null
  | finite negative rank =>
    have magnitude : ScalarText (numberLayout.magnitude rank) := by
      unfold Layout.magnitude
      split
      · decide
      · have some : ∀ n, Nat.toDigits 10 n ≠ [] := fun _ => Nat.toDigits_ne_nil
        have all : ∀ n, ∀ c ∈ Nat.toDigits 10 n, c.isDigit = true :=
          fun n c h => Nat.isDigit_of_mem_toDigits (by omega) (by omega) h
        simp only
        split
        · exact scalarText_inPlace (some _) (all _)
        · exact scalarText_scientific (some _) (all _)
    have text : floatText (.finite negative rank) =
        (if negative then "-" else "") ++ numberLayout.magnitude rank := rfl
    rw [text]
    cases negative with
    | false => rwa [if_neg Bool.false_ne_true, String.empty_append]
    | true =>
      have sign : ScalarText "-" := by decide
      exact sign.append magnitude.2

end Layout

/-! ### Integers -/

/-- No number but zero starts with a zero. -/
theorem head?_repr {n : Nat} (positive : 0 < n) : n.repr.toList.head? ≠ some '0' := by
  rw [Nat.toList_repr]
  induction n using Nat.strongRecOn with
  | ind n ih =>
    by_cases small : n < 10
    · rw [Nat.toDigits_of_lt_base small]
      have digits : ∀ m < 10, 0 < m → [m.digitChar].head? ≠ some '0' := by decide
      exact digits n small positive
    · rw [Nat.toDigits_of_base_le (by omega) (by omega), List.head?_append,
        Option.or_of_isSome (List.isSome_head?.mpr Nat.toDigits_ne_nil)]
      exact ih (n / 10) (by omega) (by omega)

/-- Digits without a leading zero are a numeral, with a minus in front of them or without. -/
theorem read?_digits (negative : Bool) {ds : List Char} (digits : ∀ c ∈ ds, c.isDigit = true)
    (lead : (ds.isEmpty || (ds.head? == some '0' && ds.length != 1)) = false) :
    Numeral.read? ((if negative then ['-'] else []) ++ ds) = some ⟨negative, ds, none, none⟩ := by
  have taken : ds.takeWhile Char.isDigit = ds := List.takeWhile_eq_self_iff.mpr digits
  have left : ds.dropWhile Char.isDigit = [] := List.dropWhile_eq_nil_iff.mpr digits
  cases negative with
  | true =>
    simp only [if_true, List.singleton_append, Numeral.read?, taken, left, lead, readExponent?]
    rfl
  | false =>
    rcases ds with _ | ⟨c, ds⟩
    · cases lead
    · have unsigned : c ≠ '-' := by
        rintro rfl
        exact absurd (digits '-' List.mem_cons_self) (by decide)
      simp only [Bool.false_eq_true, if_false, List.nil_append, Numeral.read?]
      split
      · next same => exact absurd (List.cons.inj same).1 unsigned
      · simp only [taken, left, lead, readExponent?]
        rfl

theorem read?_repr (negative : Bool) (n : Nat) :
    Numeral.read? ((if negative then ['-'] else []) ++ n.repr.toList) =
      some ⟨negative, n.repr.toList, none, none⟩ := by
  refine read?_digits negative (fun _ h => Literal.isDigit_of_mem_repr h) ?_
  rw [List.isEmpty_eq_false_iff.mpr (Literal.repr_ne_nil n), Bool.false_or]
  rcases Nat.eq_zero_or_pos n with rfl | positive
  · decide
  · rw [beq_eq_false_iff_ne.mpr (head?_repr positive), Bool.false_and]

theorem integer?_unsigned {ds : List Char} {m : Nat} (value : digitsValue ds = m)
    (fits : m < 2 ^ 64) : Numeral.integer? ⟨false, ds, none, none⟩ = some (m : Int) := by
  simp only [Numeral.integer?, value, Option.isSome_none, Bool.or_false, Bool.false_eq_true,
    if_false]
  rw [if_pos fits]

theorem integer?_negative {ds : List Char} {m : Nat} (value : digitsValue ds = m)
    (fits : m ≠ 0 ∧ m ≤ 2 ^ 63) : Numeral.integer? ⟨true, ds, none, none⟩ = some (-m : Int) := by
  simp only [Numeral.integer?, value, Option.isSome_none, Bool.or_false, Bool.false_eq_true,
    if_false, if_true]
  rw [if_pos fits]

/-- An integer that 64 bits hold is read back. -/
theorem scalar?_int {i : Int} (low : -2 ^ 63 ≤ i) (high : i < 2 ^ 64) :
    scalar? float? i.repr.toList = some (.int i) := by
  have no_word : ∀ word ∈ ["null".toList, "true".toList, "false".toList],
      Numeral.read? word = none := by
    decide
  have word_ne : ∀ {n : Numeral}, Numeral.read? i.repr.toList = some n →
      ∀ word ∈ ["null".toList, "true".toList, "false".toList], i.repr.toList ≠ word := by
    rintro n read word listed same
    rw [same, no_word word listed] at read
    cases read
  have of_read : ∀ {n : Numeral}, Numeral.read? i.repr.toList = some n → n.integer? = some i →
      scalar? float? i.repr.toList = some (.int i) := by
    intro n read integer
    have apart := word_ne read
    rw [scalar?, if_neg (apart _ (by simp)), if_neg (apart _ (by simp)), if_neg (apart _ (by simp)),
      read, Option.map_some, Numeral.value, integer]
  cases i with
  | ofNat n =>
    have read : Numeral.read? (Int.repr (.ofNat n)).toList = _ := read?_repr false n
    have fits : n < 2 ^ 64 := by
      rw [Int.ofNat_eq_natCast] at high
      omega
    exact of_read read (integer?_unsigned (Literal.ofDigitChars_repr n) fits)
  | negSucc n =>
    have text : (Int.repr (.negSucc n)).toList = ['-'] ++ (n + 1).repr.toList := by
      show ("-" ++ (n + 1).repr).toList = _
      rw [String.toList_append]
      rfl
    have read := read?_repr true (n + 1)
    rw [if_pos rfl, ← text] at read
    have fits : n + 1 ≠ 0 ∧ n + 1 ≤ 2 ^ 63 := by
      rw [Int.negSucc_eq] at low
      omega
    exact of_read read (integer?_negative (Literal.ofDigitChars_repr (n + 1)) fits)

end SqlBridge.Json
