import SqlBridge.Proofs.Literal
import SqlBridge.Text.Quoted

/-!
# Scanning rendered text

Rendered text is scanned from left to right, one character at a time. A double quote opens an
identifier, which ends at the next double quote that is not doubled; everything else are words,
numbers, parameters, signs and marks with blanks between them. Text whose last identifier is not
closed has no lexemes, and neither has text with any other character outside identifiers.
-/

namespace SqlBridge.Sql

inductive Run where
  | word
  | number
  /-- A dollar sign with digits. -/
  | param
  | sign
deriving DecidableEq, Repr

/-- The signs that comparisons are made of; a star alone stands for every column. -/
def isSign (c : Char) : Bool :=
  ['=', '<', '>', '~', '*'].contains c

def isMark (c : Char) : Bool :=
  ['(', ')', ',', '.'].contains c

def Run.takes : Run → Char → Bool
  | .word, c => c.isAlpha
  | .number, c => c.isDigit
  | .param, c => c.isDigit
  | .sign, c => isSign c

inductive Lexeme where
  /-- An identifier with its doubled quotes undone. -/
  | identifier (name : String)
  /-- A run; of a parameter the text is what follows the dollar sign. -/
  | run (kind : Run) (text : String)
  | mark (c : Char)
deriving DecidableEq, Repr

inductive Mode where
  | between
  | within (kind : Run) (text : List Char)
  /-- In an identifier. -/
  | inside (name : List Char)
  /-- After a quote in an identifier, which ends it unless another one follows. -/
  | closing (name : List Char)
  /-- After a character that belongs to nothing. -/
  | broken
deriving DecidableEq, Repr

/-- The lexeme that would end here. -/
def Mode.pending : Mode → List Lexeme
  | .within kind text => [.run kind (String.ofList text)]
  | .closing name => [.identifier (String.ofList name)]
  | _ => []

/-- What was scanned: the lexemes before the current one, and where the scanner stands. -/
structure Scanner where
  found : List Lexeme := []
  mode : Mode := .between
deriving DecidableEq, Repr

namespace Scanner

def start (found : List Lexeme) (c : Char) : Scanner :=
  if c = '"' then ⟨found, .inside []⟩
  else if c = '$' then ⟨found, .within .param []⟩
  else if c = ' ' then ⟨found, .between⟩
  else if isMark c then ⟨found ++ [.mark c], .between⟩
  else if c.isAlpha then ⟨found, .within .word [c]⟩
  else if c.isDigit then ⟨found, .within .number [c]⟩
  else if isSign c then ⟨found, .within .sign [c]⟩
  else ⟨found, .broken⟩

def step (s : Scanner) (c : Char) : Scanner :=
  match s.mode with
  | .between => start s.found c
  | .within kind text =>
    if kind.takes c then ⟨s.found, .within kind (text ++ [c])⟩
    else start (s.found ++ s.mode.pending) c
  | .inside name => ⟨s.found, if c = '"' then .closing name else .inside (name ++ [c])⟩
  | .closing name =>
    if c = '"' then ⟨s.found, .inside (name ++ [c])⟩ else start (s.found ++ s.mode.pending) c
  | .broken => s

def run (s : Scanner) (cs : List Char) : Scanner :=
  cs.foldl step s

def lexemes? (s : Scanner) : Option (List Lexeme) :=
  match s.mode with
  | .inside _ | .broken => none
  | _ => some (s.found ++ s.mode.pending)

end Scanner

def scan (text : String) : Scanner :=
  Scanner.run {} text.toList

def lexemes? (text : String) : Option (List Lexeme) :=
  (scan text).lexemes?

example : lexemes? "\"a\"\"$1\" <= $12" =
    some [.identifier "a\"$1", .run .sign "<=", .run .param "12"] := by
  decide

example : lexemes? "\"a\"\" = 1" = none := by decide

variable {ls ms : List Lexeme} {m : Mode} {c : Char} {cs ds : List Char} {s : Scanner}

namespace Scanner

theorem run_append : s.run (cs ++ ds) = (s.run cs).run ds :=
  List.foldl_append

@[simp] theorem run_nil : s.run [] = s := rfl

theorem run_cons : s.run (c :: cs) = (s.step c).run cs := rfl

/-! ### What was found before -/

def after (ls : List Lexeme) (s : Scanner) : Scanner :=
  ⟨ls ++ s.found, s.mode⟩

theorem start_after : start (ls ++ ms) c = (start ms c).after ls := by
  simp only [start, after]
  split_ifs <;> simp

theorem step_after : (s.after ls).step c = (s.step c).after ls := by
  obtain ⟨found, mode⟩ := s
  cases mode with
  | between => exact start_after
  | within kind text =>
    simp only [step, after, List.append_assoc]
    split
    · rfl
    · exact start_after
  | inside name => rfl
  | closing name =>
    simp only [step, after, List.append_assoc]
    split
    · rfl
    · exact start_after
  | broken => rfl

/-- What was found before changes nothing. -/
theorem run_after : (s.after ls).run cs = (s.run cs).after ls := by
  induction cs generalizing s with
  | nil => rfl
  | cons c cs ih => rw [run_cons, run_cons, step_after, ih]

theorem lexemes?_after : (s.after ls).lexemes? = s.lexemes?.map (ls ++ ·) := by
  obtain ⟨found, mode⟩ := s
  cases mode <;> simp [lexemes?, after]

/-! ### Blanks and marks -/

/-- Blanks and marks end whatever stands before them. -/
def isBreak (c : Char) : Bool :=
  c = ' ' || isMark c

theorem not_takes_of_isBreak (h : isBreak c = true) (kind : Run) : kind.takes c = false := by
  have cases_of : c = ' ' ∨ c = '(' ∨ c = ')' ∨ c = ',' ∨ c = '.' := by
    simpa [isBreak, isMark] using h
  rcases cases_of with rfl | rfl | rfl | rfl | rfl <;> cases kind <;> decide

/-- A blank or a mark is taken as if the scanner stood between lexemes. -/
theorem step_of_isBreak (read : s.lexemes? = some ls) (h : isBreak c = true) :
    s.step c = step ⟨ls, .between⟩ c := by
  have quote : c ≠ '"' := by
    rintro rfl
    revert h
    decide
  obtain ⟨found, mode⟩ := s
  cases mode with
  | between =>
    simp only [lexemes?, Mode.pending, List.append_nil, Option.some.injEq] at read
    rw [read]
  | within kind text =>
    simp only [lexemes?, Option.some.injEq] at read
    simp [step, not_takes_of_isBreak h, read]
  | closing name =>
    simp only [lexemes?, Option.some.injEq] at read
    simp [step, quote, read]
  | inside name => cases read
  | broken => cases read

/-- Text that starts with a blank or a mark, or stands between lexemes, is scanned by itself. -/
theorem run_of_lexemes? (read : s.lexemes? = some ls)
    (apart : s.mode = .between ∨ cs.head?.any isBreak = true) :
    s.run cs = (run {} cs).after ls := by
  have alone : run ⟨ls, .between⟩ cs = (run {} cs).after ls := by
    rw [← run_after]
    simp [after]
  rw [← alone]
  rcases apart with between | apart
  · obtain ⟨found, mode⟩ := s
    subst between
    simp only [lexemes?, Mode.pending, List.append_nil, Option.some.injEq] at read
    rw [read]
  · rcases cs with _ | ⟨c, cs⟩
    · cases apart
    · rw [run_cons, run_cons, step_of_isBreak read apart]

/-! ### Identifiers, parameters and numbers -/

theorem run_doubled {name : List Char} : run ⟨ls, .inside name⟩ (Text.doubled '"' cs) =
    ⟨ls, .inside (name ++ cs)⟩ := by
  induction cs generalizing name with
  | nil => simp [Text.doubled]
  | cons c cs ih =>
    have split : Text.doubled '"' (c :: cs) =
        (if c = '"' then ['"', '"'] else [c]) ++ Text.doubled '"' cs := rfl
    have one : run ⟨ls, .inside name⟩ (if c = '"' then ['"', '"'] else [c]) =
        ⟨ls, .inside (name ++ [c])⟩ := by
      by_cases quote : c = '"'
      · subst quote
        rfl
      · simp [quote, run, step]
    rw [split, run_append, one, ih, List.append_assoc, List.singleton_append]

theorem run_enclosed : run {} (Text.enclosed '"' cs) = ⟨[], .closing cs⟩ := by
  have split : Text.enclosed '"' cs = '"' :: (Text.doubled '"' cs ++ ['"']) := rfl
  have opened : step {} '"' = ⟨[], .inside []⟩ := rfl
  rw [split, run_cons, opened, run_append, run_doubled]
  rfl

theorem start_of_isDigit (digit : c.isDigit = true) : start ls c = ⟨ls, .within .number [c]⟩ := by
  have other : ∀ d : Char, d.isDigit = false → c ≠ d := by
    rintro d apart rfl
    rw [digit] at apart
    cases apart
  have mark : isMark c = false := by
    simp [isMark, other '(' rfl, other ')' rfl, other ',' rfl, other '.' rfl]
  have letter : c.isAlpha = false := by
    have range := Text.isDigit_iff.mp digit
    rw [Text.isAlpha_eq, Bool.or_eq_false_iff, ← Bool.not_eq_true, ← Bool.not_eq_true,
      Text.isUpper_iff, Text.isLower_iff]
    omega
  simp [start, digit, mark, letter, other '"' rfl, other '$' rfl, other ' ' rfl]

theorem run_digits {kind : Run} {text : List Char} (digits : ∀ c ∈ cs, kind.takes c = true) :
    run ⟨ls, .within kind text⟩ cs = ⟨ls, .within kind (text ++ cs)⟩ := by
  induction cs generalizing text with
  | nil => rw [run_nil, List.append_nil]
  | cons c cs ih =>
    obtain ⟨first, others⟩ := List.forall_mem_cons.mp digits
    have one : step ⟨ls, .within kind text⟩ c = ⟨ls, .within kind (text ++ [c])⟩ := by
      simp [step, first]
    rw [run_cons, one, ih others, List.append_assoc, List.singleton_append]

end Scanner

theorem scan_append (a b : String) : scan (a ++ b) = (scan a).run b.toList := by
  rw [scan, scan, String.toList_append, Scanner.run_append]

theorem lexemes?_quoted (name : String) :
    lexemes? (Text.quoted '"' name) = some [.identifier name] := by
  rw [lexemes?, scan, Text.quoted, String.toList_ofList, Scanner.run_enclosed]
  simp [Scanner.lexemes?, Mode.pending]

theorem lexemes?_param (n : Nat) : lexemes? ("$" ++ n.repr) = some [.run .param n.repr] := by
  have text : ("$" ++ n.repr).toList = '$' :: n.repr.toList := by
    rw [String.toList_append]
    rfl
  have opened : Scanner.step {} '$' = ⟨[], .within .param []⟩ := rfl
  have digits : ∀ c ∈ n.repr.toList, Run.param.takes c = true :=
    fun c listed => Literal.isDigit_of_mem_repr listed
  rw [lexemes?, scan, text, Scanner.run_cons, opened, Scanner.run_digits digits]
  simp only [Scanner.lexemes?, Mode.pending, List.nil_append, String.ofList_toList]

theorem lexemes?_repr (n : Nat) : lexemes? n.repr = some [.run .number n.repr] := by
  obtain ⟨c, cs, split⟩ := List.exists_cons_of_ne_nil (Literal.repr_ne_nil n)
  have digits : ∀ d ∈ c :: cs, d.isDigit = true := by
    intro d listed
    rw [← split] at listed
    exact Literal.isDigit_of_mem_repr listed
  obtain ⟨first, others⟩ := List.forall_mem_cons.mp digits
  have opened : Scanner.step {} c = ⟨[], .within .number [c]⟩ := Scanner.start_of_isDigit first
  rw [lexemes?, scan, split, Scanner.run_cons, opened, Scanner.run_digits others]
  have text : String.ofList ([c] ++ cs) = n.repr := by
    rw [List.singleton_append, ← split, String.ofList_toList]
  simp only [Scanner.lexemes?, Mode.pending, text, List.nil_append]

end SqlBridge.Sql
