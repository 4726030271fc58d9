import Mathlib.Data.List.Basic

/-!
# Regular expressions

The regular expressions made of single characters, points, stars and anchors, as texts and with
their meaning. A point stands for any character, and a star repeats what stands before it. A
backslash makes a punctuation character after it literal. The anchors match at the very start and at
the very end of a text only. A text with any other operator in it, such as a group, a class or a
letter after a backslash, is no expression here and finds nothing.
-/

namespace SqlBridge.Regex

inductive Atom where
  | any
  | char (c : Char)
deriving DecidableEq, Repr

inductive Element where
  /-- The start of the text. -/
  | start
  /-- The end of the text. -/
  | finish
  /-- One character. -/
  | one (a : Atom)
  /-- Any number of characters. -/
  | star (a : Atom)
deriving DecidableEq, Repr

/-! ### Expressions as texts -/

def isOperator (c : Char) : Bool :=
  ['^', '$', '.', '*', '+', '?', '|', '(', ')', '[', ']', '\x7b', '\x7d', '\\'].contains c

/-- ASCII punctuation: the visible ASCII characters that are neither letters nor digits. -/
def isPunctuation (c : Char) : Bool :=
  0x21 ≤ c.toNat && c.toNat ≤ 0x7e && !c.isAlphanum

/-- The first character that an expression describes, and the rest of the text. -/
def atom? : List Char → Option (Atom × List Char)
  | [] => none
  | '.' :: cs => some (.any, cs)
  | '\\' :: c :: cs => if isPunctuation c then some (.char c, cs) else none
  | c :: cs => if isOperator c then none else some (.char c, cs)

def element? : List Char → Option (Element × List Char)
  | '^' :: cs => some (.start, cs)
  | '$' :: cs => some (.finish, cs)
  | cs =>
    match atom? cs with
    | none => none
    | some (a, '*' :: rest) => some (.star a, rest)
    | some (a, rest) => some (.one a, rest)

theorem length_lt_of_atom? {cs rest : List Char} {a : Atom} (h : atom? cs = some (a, rest)) :
    rest.length < cs.length := by
  unfold atom? at h
  split at h
  · cases h
  · cases h; exact Nat.lt_succ_self _
  · split at h <;> cases h
    exact Nat.lt_succ_of_lt (Nat.lt_succ_self _)
  · split at h <;> cases h
    exact Nat.lt_succ_self _

theorem length_lt_of_element? {cs rest : List Char} {e : Element}
    (h : element? cs = some (e, rest)) : rest.length < cs.length := by
  unfold element? at h
  split at h
  · cases h; exact Nat.lt_succ_self _
  · cases h; exact Nat.lt_succ_self _
  · split at h
    · cases h
    · next found =>
      cases h
      exact Nat.lt_of_succ_lt (length_lt_of_atom? found)
    · next found =>
      cases h
      exact length_lt_of_atom? found

def parse? (cs : List Char) : Option (List Element) :=
  match cs with
  | [] => some []
  | c :: cs =>
    match h : element? (c :: cs) with
    | none => none
    | some (e, rest) =>
      have : rest.length < cs.length + 1 := length_lt_of_element? h
      (parse? rest).map (e :: ·)
termination_by cs.length

theorem parse?_cons {cs rest : List Char} {e : Element} (h : element? cs = some (e, rest)) :
    parse? cs = (parse? rest).map (e :: ·) := by
  cases cs with
  | nil => cases h
  | cons c cs =>
    rw [parse?]
    split
    · next none => rw [h] at none; cases none
    · next found =>
      rw [h] at found
      cases found
      rfl

theorem atom?_escaped {c : Char} {cs : List Char} (h : isPunctuation c = true) :
    atom? ('\\' :: c :: cs) = some (.char c, cs) := by
  rw [atom?, if_pos h]

theorem atom?_plain {c : Char} {cs : List Char} (h : isOperator c = false) :
    atom? (c :: cs) = some (.char c, cs) := by
  unfold atom?
  split
  · contradiction
  · next same => cases same; cases h
  · next same => cases same; cases h
  · next same => cases same; simp [h]

/-- Without a star behind it an atom stands for one character. -/
theorem element?_of_atom? {c : Char} {cs rest : List Char} {a : Atom} (bare : c ≠ '^' ∧ c ≠ '$')
    (h : atom? (c :: cs) = some (a, rest)) (last : rest.head? ≠ some '*') :
    element? (c :: cs) = some (.one a, rest) := by
  unfold element?
  split
  · next same => cases same; exact absurd rfl bare.1
  · next same => cases same; exact absurd rfl bare.2
  · rw [h]
    split
    · contradiction
    · next same => cases same; exact absurd rfl last
    · next same => cases same; rfl

/-! ### Matches -/

def Atom.Accepts : Atom → Char → Prop
  | .any, _ => True
  | .char c, d => d = c

/-- The element matches the characters `m` that stand between `before` and `after`. -/
def Element.Matches (before m after : List Char) : Element → Prop
  | .start => m = [] ∧ before = []
  | .finish => m = [] ∧ after = []
  | .one a => ∃ c, m = [c] ∧ a.Accepts c
  | .star a => ∀ c ∈ m, a.Accepts c

/-- The elements match, one after the other, the characters `m` that stand between `before` and
`after`. -/
def Matches : List Element → List Char → List Char → List Char → Prop
  | [], _, m, _ => m = []
  | e :: es, before, m, after =>
    ∃ p q, m = p ++ q ∧ e.Matches before p (q ++ after) ∧ Matches es (before ++ p) q after

/-- The expression has a match somewhere in the text. -/
def Finds (regex text : String) : Prop :=
  ∃ es before m after, parse? regex.toList = some es ∧ text.toList = before ++ (m ++ after) ∧
    Matches es before m after

variable {es fs : List Element} {before m after : List Char}

@[simp] theorem matches_nil : Matches [] before m after ↔ m = [] := Iff.rfl

theorem matches_append : Matches (es ++ fs) before m after ↔
    ∃ p q, m = p ++ q ∧ Matches es before p (q ++ after) ∧ Matches fs (before ++ p) q after := by
  induction es generalizing before m with
  | nil => simp
  | cons e es ih =>
    simp only [List.cons_append, Matches, ih]
    constructor
    · rintro ⟨p, _, rfl, first, q, r, rfl, second, third⟩
      refine ⟨p ++ q, r, by simp, ⟨p, q, rfl, ?_, second⟩, ?_⟩
      · rwa [List.append_assoc] at first
      · rwa [List.append_assoc] at third
    · rintro ⟨_, r, rfl, ⟨p, q, rfl, first, second⟩, third⟩
      refine ⟨p, q ++ r, by simp, ?_, q, r, rfl, second, ?_⟩
      · rwa [List.append_assoc]
      · rwa [List.append_assoc]

theorem matches_start_cons :
    Matches (.start :: es) before m after ↔ before = [] ∧ Matches es [] m after := by
  simp only [Matches, Element.Matches]
  constructor
  · rintro ⟨_, q, rfl, ⟨rfl, rfl⟩, others⟩
    exact ⟨rfl, others⟩
  · rintro ⟨rfl, others⟩
    exact ⟨[], m, rfl, ⟨rfl, rfl⟩, others⟩

theorem matches_append_finish :
    Matches (es ++ [.finish]) before m after ↔ after = [] ∧ Matches es before m [] := by
  simp only [matches_append, Matches, Element.Matches]
  constructor
  · rintro ⟨p, _, rfl, first, _, _, rfl, ⟨rfl, ended⟩, rfl⟩
    obtain rfl : after = [] := ended
    exact ⟨rfl, by simpa using first⟩
  · rintro ⟨rfl, first⟩
    exact ⟨m, [], by simp, by simpa using first, [], [], rfl, ⟨rfl, rfl⟩, rfl⟩

/-- A star after a point matches whatever stands there. -/
theorem matches_anyRun_cons :
    Matches (.star .any :: es) before m after ↔
      ∃ p q, m = p ++ q ∧ Matches es (before ++ p) q after := by
  simp [Matches, Element.Matches, Atom.Accepts]

theorem matches_anyRun : Matches [.star .any] before m after := by
  rw [matches_anyRun_cons]
  exact ⟨m, [], by simp, rfl⟩

/-- No element but the anchors depends on what stands around it. -/
theorem matches_of_no_anchor (plain : ∀ e ∈ es, e ≠ .start ∧ e ≠ .finish)
    {before' after' : List Char} (h : Matches es before m after) : Matches es before' m after' := by
  induction es generalizing before before' m with
  | nil => exact h
  | cons e es ih =>
    obtain ⟨here, others⟩ := List.forall_mem_cons.mp plain
    obtain ⟨p, q, rfl, first, rest⟩ := h
    refine ⟨p, q, rfl, ?_, ih others rest⟩
    cases e with
    | start => exact absurd rfl here.1
    | finish => exact absurd rfl here.2
    | one a => exact first
    | star a => exact first

end SqlBridge.Regex
