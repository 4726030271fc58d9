/-!
# Characters of texts

Words are compared up to the case of the 26 ASCII letters only: no other character has a second form
here, whatever Unicode says of it. A character is blank exactly when it has the Unicode property
`White_Space`; blanks separate tokens, surround statements and make a primary key empty. Trimming
works on lists of characters, so that what it removes can be stated with `takeWhile` and
`dropWhile`, which also take the runs of which lexemes are made.
-/

namespace SqlBridge.Text

/-! ### Words -/

def upper (s : String) : String :=
  String.ofList (s.toList.map Char.toUpper)

/-- Whether two texts differ at most in the case of ASCII letters. -/
def sameWord (a b : String) : Bool :=
  a.toList.map Char.toUpper == b.toList.map Char.toUpper

@[simp] theorem sameWord_refl (a : String) : sameWord a a = true := by
  simp [sameWord]

theorem sameWord_comm (a b : String) : sameWord a b = sameWord b a := by
  simp [sameWord, Bool.beq_comm]

theorem sameWord_iff_upper_eq {a b : String} : sameWord a b = true ↔ upper a = upper b := by
  simp [sameWord, upper, String.ofList_inj]

/-! ### Blanks -/

/-- The code points with the property `White_Space`, as closed ranges in increasing order. -/
def blankRanges : List (Nat × Nat) :=
  [(0x09, 0x0D), (0x20, 0x20), (0x85, 0x85), (0xA0, 0xA0), (0x1680, 0x1680), (0x2000, 0x200A),
   (0x2028, 0x2029), (0x202F, 0x202F), (0x205F, 0x205F), (0x3000, 0x3000)]

def isBlank (c : Char) : Bool :=
  blankRanges.any fun r => r.1 ≤ c.toNat && c.toNat ≤ r.2

/-- Remove every trailing character that satisfies `drop`. -/
def trimEndWhere (drop : Char → Bool) (cs : List Char) : List Char :=
  (cs.reverse.dropWhile drop).reverse

def trim (cs : List Char) : List Char :=
  trimEndWhere isBlank (cs.dropWhile isBlank)

def isAllBlank (s : String) : Bool :=
  s.toList.all isBlank

@[simp] theorem trimEndWhere_nil (drop : Char → Bool) : trimEndWhere drop [] = [] := rfl

/-- Trimming the end keeps a list that ends in a character to be kept. -/
theorem trimEndWhere_append_singleton (drop : Char → Bool) (cs : List Char) (c : Char) :
    trimEndWhere drop (cs ++ [c]) = if drop c then trimEndWhere drop cs else cs ++ [c] := by
  by_cases h : drop c <;> simp [trimEndWhere, h]

/-! ### Runs -/

theorem length_dropWhile_le (p : Char → Bool) (cs : List Char) :
    (cs.dropWhile p).length ≤ cs.length :=
  (List.dropWhile_sublist p).length_le

end SqlBridge.Text
