import Mathlib.Data.List.Forall2
import SqlBridge.Text.Basic

/-!
# Runs of characters, and what the case of a word leaves fixed

A run of characters in front of a character of another class is what is taken, and what follows it
is what is left. Only the 26 letters have a second form: a text without letters is therefore the
only one that is the same word, and a character keeps every property that no letter has.
-/

namespace SqlBridge.Text

/-! ### Runs -/

variable {p : Char → Bool} {cs rest : List Char}

theorem takeWhile_append_of_all (all : ∀ c ∈ cs, p c = true)
    (ended : ∀ c ∈ rest.head?, p c = false) :
    (cs ++ rest).takeWhile p = cs ∧ (cs ++ rest).dropWhile p = rest := by
  rw [List.takeWhile_append_of_pos all, List.dropWhile_append_of_pos all]
  rcases rest with _ | ⟨d, rest⟩
  · simp
  · have stop : ¬ p d = true := by simp [ended d rfl]
    rw [List.takeWhile_cons_of_neg stop, List.dropWhile_cons_of_neg stop, List.append_nil]
    exact ⟨rfl, rfl⟩

/-- A run that ends within a text, or in front of a character of another class, goes no further. -/
theorem takeWhile_append_of_ended (cs : List Char) (ended : ∀ c ∈ rest.head?, p c = false) :
    (cs ++ rest).takeWhile p = cs.takeWhile p ∧
      (cs ++ rest).dropWhile p = cs.dropWhile p ++ rest := by
  induction cs with
  | nil => exact takeWhile_append_of_all (by simp) ended
  | cons c cs ih =>
    by_cases hc : p c = true
    · simp only [List.cons_append, List.takeWhile_cons_of_pos hc, List.dropWhile_cons_of_pos hc, ih,
        and_self]
    · simp only [List.cons_append, List.takeWhile_cons_of_neg hc, List.dropWhile_cons_of_neg hc,
        and_self]

/-- A text is a run and, after it, a character of another class with more. -/
theorem exists_of_dropWhile_eq_cons {c : Char} (h : cs.dropWhile p = c :: rest) :
    cs = cs.takeWhile p ++ c :: rest ∧ (∀ d ∈ cs.takeWhile p, p d = true) ∧ p c = false := by
  refine ⟨?_, fun d hd => List.all_eq_true.mp List.all_takeWhile d hd, ?_⟩
  · rw [← h, List.takeWhile_append_dropWhile]
  · have stop := List.head?_dropWhile_not p cs
    rw [h] at stop
    simpa using stop

end SqlBridge.Text

/-! ### Letters -/

namespace SqlBridge.Text

/-! ### Classes of characters -/

section Classes

variable {c : Char}

theorem isUpper_iff : c.isUpper = true ↔ 65 ≤ c.toNat ∧ c.toNat ≤ 90 := by
  change decide ('A'.val ≤ c.val ∧ c.val ≤ 'Z'.val) = true ↔ _
  rw [decide_eq_true_iff, UInt32.le_iff_toNat_le, UInt32.le_iff_toNat_le]
  rfl

theorem isLower_iff : c.isLower = true ↔ 97 ≤ c.toNat ∧ c.toNat ≤ 122 := by
  change (decide ('a'.val ≤ c.val) && decide (c.val ≤ 'z'.val)) = true ↔ _
  rw [Bool.and_eq_true, decide_eq_true_iff, decide_eq_true_iff, UInt32.le_iff_toNat_le,
    UInt32.le_iff_toNat_le]
  rfl

theorem isDigit_iff : c.isDigit = true ↔ 48 ≤ c.toNat ∧ c.toNat ≤ 57 := by
  rw [Char.isDigit_iff_toNat]
  rfl

theorem isAlpha_eq : c.isAlpha = (c.isUpper || c.isLower) := rfl

theorem isAlphanum_eq : c.isAlphanum = (c.isAlpha || c.isDigit) := rfl

end Classes

/-! ### Upper case -/

theorem sameWord_iff_map_eq {a b : String} :
    sameWord a b = true ↔ a.toList.map Char.toUpper = b.toList.map Char.toUpper := by
  simp [sameWord]

theorem toNat_toUpper (c : Char) :
    c.toUpper.toNat = if c.isLower = true then c.toNat - 32 else c.toNat := by
  by_cases small : c.isLower = true
  · have bounds := isLower_iff.mp small
    have inside : 'a'.val ≤ c.val ∧ c.val ≤ 'z'.val := by
      rw [UInt32.le_iff_toNat_le, UInt32.le_iff_toNat_le]
      exact bounds
    have image : c.toUpper.val = c.val + ('A'.val - 'a'.val) := by
      delta Char.toUpper
      rw [dif_pos inside]
    have shift : ('A'.val - 'a'.val).toNat = 4294967264 := by decide
    rw [if_pos small, ← Char.toNat_val, image, UInt32.toNat_add, shift, Char.toNat_val]
    omega
  · have outside : ¬ ('a'.val ≤ c.val ∧ c.val ≤ 'z'.val) := by
      rw [isLower_iff] at small
      rw [UInt32.le_iff_toNat_le, UInt32.le_iff_toNat_le]
      exact small
    have fixed : c.toUpper = c := dif_neg outside
    rw [if_neg small, fixed]

/-- Only a small letter changes in upper case, and it becomes a capital one. -/
theorem toUpper_eq_or (c : Char) :
    c.toUpper = c ∨ (c.isLower = true ∧ c.toUpper.isUpper = true) := by
  have image := toNat_toUpper c
  by_cases small : c.isLower = true
  · rw [if_pos small] at image
    have bounds := isLower_iff.mp small
    exact .inr ⟨small, isUpper_iff.mpr (by omega)⟩
  · rw [if_neg small] at image
    exact .inl (Char.toNat_inj.mp image)

theorem toUpper_eq_self {c : Char} (h : c.isLower = false) : c.toUpper = c := by
  rcases toUpper_eq_or c with same | ⟨small, _⟩
  · exact same
  · rw [h] at small
    cases small

/-- What is no capital letter is the upper case of itself only. -/
theorem eq_of_toUpper_eq {c d : Char} (h : c.toUpper = d) (hd : d.isUpper = false) : c = d := by
  rcases toUpper_eq_or c with same | ⟨_, capital⟩
  · exact same.symm.trans h
  · rw [h, hd] at capital
    cases capital

/-- Texts with the same upper case are the same if one of them has no letters. -/
theorem eq_of_map_toUpper_eq {as bs : List Char} (h : as.map Char.toUpper = bs.map Char.toUpper)
    (hb : ∀ c ∈ bs, c.isAlpha = false) : as = bs := by
  induction bs generalizing as with
  | nil => simpa using h
  | cons b bs ih =>
    obtain ⟨plain, others⟩ := List.forall_mem_cons.mp hb
    rw [isAlpha_eq, Bool.or_eq_false_iff] at plain
    rcases as with _ | ⟨a, as⟩
    · simp at h
    · simp only [List.map_cons, List.cons.injEq, toUpper_eq_self plain.2] at h
      rw [eq_of_toUpper_eq h.1 plain.1, ih h.2 others]

/-- A text without letters is the upper case of itself only. -/
theorem upper_eq_iff {a b : String} (hb : ∀ c ∈ b.toList, c.isAlpha = false) :
    upper a = b ↔ a = b := by
  have fixed : b.toList.map Char.toUpper = b.toList := by
    refine (List.map_congr_left fun c hc => ?_).trans (List.map_id _)
    have plain := hb c hc
    rw [isAlpha_eq, Bool.or_eq_false_iff] at plain
    exact toUpper_eq_self plain.2
  constructor
  · intro h
    refine String.toList_inj.mp (eq_of_map_toUpper_eq ?_ hb)
    rw [fixed, ← h, upper, String.toList_ofList]
  · rintro rfl
    rw [upper, fixed, String.ofList_toList]

/-- A word that is the same as one in capitals consists of letters. -/
theorem isAlpha_of_sameWord {a b : String} (same : sameWord a b = true)
    (capital : ∀ d ∈ b.toList, d.isUpper = true) : ∀ c ∈ a.toList, c.isAlpha = true := by
  intro c hc
  have upper : c.toUpper.isUpper = true := by
    have listed : c.toUpper ∈ b.toList.map Char.toUpper :=
      sameWord_iff_map_eq.mp same ▸ List.mem_map_of_mem hc
    obtain ⟨d, hd, image⟩ := List.mem_map.mp listed
    have large := capital d hd
    have fixed : d.toUpper = d := by
      apply toUpper_eq_self
      rw [Bool.eq_false_iff, Ne, isLower_iff]
      rw [isUpper_iff] at large
      omega
    rw [← image, fixed]
    exact large
  rcases toUpper_eq_or c with fixed | ⟨small, _⟩
  · rw [fixed] at upper
    rw [isAlpha_eq, upper, Bool.true_or]
  · rw [isAlpha_eq, small, Bool.or_true]

theorem isBlank_eq_false_of_isAlphanum {c : Char} (h : c.isAlphanum = true) :
    isBlank c = false := by
  have bounds : 48 ≤ c.toNat ∧ c.toNat ≤ 122 := by
    rw [isAlphanum_eq, isAlpha_eq, Bool.or_eq_true, Bool.or_eq_true, isUpper_iff, isLower_iff,
      isDigit_iff] at h
    omega
  simp only [isBlank, blankRanges, List.any_cons, List.any_nil, Bool.or_false,
    Bool.or_eq_false_iff, Bool.and_eq_false_iff, decide_eq_false_iff_not]
  omega

/-! ### Letter by letter -/

/-- Two characters are the same, or they are the two forms of one of the 26 letters. -/
inductive SameLetter : Char → Char → Prop where
  | same (c : Char) : SameLetter c c
  | small {c d : Char} (capital : c.isUpper = true) (shift : d.toNat = c.toNat + 32) :
      SameLetter c d
  | large {c d : Char} (capital : d.isUpper = true) (shift : c.toNat = d.toNat + 32) :
      SameLetter c d

theorem toUpper_eq_toUpper_iff {c d : Char} : c.toUpper = d.toUpper ↔ SameLetter c d := by
  constructor
  · intro same
    have h := congrArg Char.toNat same
    rw [toNat_toUpper, toNat_toUpper] at h
    by_cases hc : c.isLower = true
    · have bounds := isLower_iff.mp hc
      rw [if_pos hc] at h
      by_cases hd : d.isLower = true
      · have := isLower_iff.mp hd
        rw [if_pos hd] at h
        obtain rfl : c = d := Char.toNat_inj.mp (by omega)
        exact .same c
      · rw [if_neg hd] at h
        exact .large (isUpper_iff.mpr (by omega)) (by omega)
    · rw [if_neg hc] at h
      by_cases hd : d.isLower = true
      · have := isLower_iff.mp hd
        rw [if_pos hd] at h
        exact .small (isUpper_iff.mpr (by omega)) (by omega)
      · rw [if_neg hd] at h
        obtain rfl : c = d := Char.toNat_inj.mp h
        exact .same c
  · have forms : ∀ {c d : Char}, c.isUpper = true → d.toNat = c.toNat + 32 →
        c.toUpper = d.toUpper := by
      intro c d capital shift
      rw [isUpper_iff] at capital
      have hc : ¬ c.isLower = true := by
        rw [isLower_iff]
        omega
      have hd : d.isLower = true := isLower_iff.mpr (by omega)
      rw [← Char.toNat_inj, toNat_toUpper, toNat_toUpper, if_neg hc, if_pos hd]
      omega
    intro h
    cases h with
    | same => rfl
    | small capital shift => exact forms capital shift
    | large capital shift => exact (forms capital shift).symm

/-- Words are the same if they are so letter by letter. -/
theorem sameWord_iff_forall₂ {a b : String} :
    sameWord a b = true ↔ List.Forall₂ SameLetter a.toList b.toList := by
  rw [sameWord_iff_map_eq, ← List.forall₂_eq_eq_eq, List.forall₂_map_left_iff,
    List.forall₂_map_right_iff]
  simp only [toUpper_eq_toUpper_iff]

end SqlBridge.Text
