import Mathlib.Data.List.Chain
import SqlBridge.Proofs.Sql.Lexeme
import SqlBridge.Proofs.Sql.Part
import SqlBridge.Sql.Render

/-!
# Parts that stay apart

No lexeme of rendered text runs over from one part into the next: of two parts in a row the first
one ends between lexemes or the second one starts with a blank or a mark. So whatever the names are,
writing a part adds the lexemes of that part, and the parameters are counted up one by one.
-/

namespace SqlBridge.Sql

def keywords : List String :=
  ["SELECT", "DISTINCT", "AS", "FROM", "LEFT", "OUTER", "JOIN", "ON", "WHERE", "AND", "OR", "IS",
    "NOT", "NULL", "ORDER", "BY", "ASC", "DESC", "LIMIT", "OFFSET", "INSERT", "INTO", "VALUES",
    "CONFLICT", "DO", "NOTHING", "UPDATE", "SET", "DELETE", "CALL"]

def signs : List String :=
  ["=", "<>", "<", "<=", ">", ">=", "~", "~*", "*"]

def Lexeme.isFixed : Lexeme → Bool
  | .run .word text => keywords.contains text
  | .run .sign text => signs.contains text
  | .mark c => isMark c
  | _ => false

def Lexeme.param? : Lexeme → Option String
  | .run .param text => some text
  | _ => none

def isPhrase (text : String) : Bool :=
  match lexemes? text with
  | some ls => ls.all Lexeme.isFixed
  | none => false

namespace Part

/-- The lexemes of a part; a parameter in it has the number `n`. -/
def lexemes (n : Nat) : Part → List Lexeme
  | .fixed text => (lexemes? text).getD []
  | .identifier name => [.identifier name]
  | .param _ => [.run .param n.repr]

/-- Fixed text is a phrase or a number. -/
def Plain : Part → Prop
  | .fixed text => isPhrase text = true ∨ ∃ n : Nat, text = n.repr
  | _ => True

/-- Whether a part ends between lexemes. -/
def isOpen : Part → Bool
  | .fixed text => (scan text).mode = .between
  | _ => false

/-- Whether a part starts with a blank or a mark. -/
def isApart : Part → Bool
  | .fixed text => text.toList.head?.any Scanner.isBreak
  | _ => false

end Part

def lexemesFrom (n : Nat) : List Part → List Lexeme
  | [] => []
  | p :: rest => p.lexemes n ++ lexemesFrom (n + p.values.length) rest

/-- Of two parts in a row the first one is open or the second one is apart. -/
def KeptApart (ps : List Part) : Prop :=
  ps.IsChain fun p q => p.isOpen = true ∨ q.isApart = true

/-- The text of a draft is these lexemes, in which the parameters are counted up to its count. -/
structure Draft.Scanned (s : Draft) (ls : List Lexeme) : Prop where
  scanned : lexemes? s.text = some ls
  numbered : ls.filterMap Lexeme.param? = (List.range' 1 s.count).map Nat.repr

variable {n : Nat} {p : Part} {ps qs : List Part} {s : Draft} {ls : List Lexeme} {text : String}

/-! ### Single parts -/

theorem phrase_lexemes (phrase : isPhrase text = true) :
    ∃ ls, lexemes? text = some ls ∧ ∀ l ∈ ls, l.isFixed = true := by
  rw [isPhrase] at phrase
  cases found : lexemes? text with
  | none => rw [found] at phrase; cases phrase
  | some ls =>
    rw [found] at phrase
    exact ⟨ls, rfl, List.all_eq_true.mp phrase⟩

theorem param?_of_isFixed {l : Lexeme} (fixed : l.isFixed = true) : l.param? = none := by
  cases l with
  | identifier name => rfl
  | mark c => rfl
  | run kind text => cases kind <;> first | rfl | cases fixed

/-- A part by itself is its lexemes. -/
theorem lexemes?_text (plain : p.Plain) (n : Nat) : lexemes? (p.text n) = some (p.lexemes n) := by
  cases p with
  | identifier name => exact lexemes?_quoted name
  | param value => exact lexemes?_param n
  | fixed text =>
    have found : ∃ ls, lexemes? text = some ls := by
      rcases plain with phrase | ⟨k, rfl⟩
      · obtain ⟨ls, found, _⟩ := phrase_lexemes phrase
        exact ⟨ls, found⟩
      · exact ⟨_, lexemes?_repr k⟩
    obtain ⟨ls, found⟩ := found
    rw [Part.text, Part.lexemes, found, Option.getD_some]

/-- The only numbers of parameters are those of the parameters. -/
theorem filterMap_param?_lexemes (plain : p.Plain) :
    (p.lexemes n).filterMap Lexeme.param? = (List.range' n p.values.length).map Nat.repr := by
  cases p with
  | identifier name => rfl
  | param value => rfl
  | fixed text =>
    rcases plain with phrase | ⟨k, rfl⟩
    · obtain ⟨ls, found, fixed⟩ := phrase_lexemes phrase
      rw [Part.lexemes, found, Option.getD_some]
      exact List.filterMap_eq_nil_iff.mpr fun l listed => param?_of_isFixed (fixed l listed)
    · rw [Part.lexemes, lexemes?_repr]
      rfl

/-! ### Parts in a row -/

theorem lexemesFrom_append :
    lexemesFrom n (ps ++ qs) = lexemesFrom n ps ++ lexemesFrom (n + (paramsOf ps).length) qs := by
  induction ps generalizing n with
  | nil => rfl
  | cons p ps ih =>
    have number : n + p.values.length + (paramsOf ps).length =
        n + (p.values.length + (paramsOf ps).length) := by
      omega
    rw [List.cons_append, lexemesFrom, ih, lexemesFrom, paramsOf_cons, List.length_append, number,
      List.append_assoc]

theorem mem_lexemesFrom {l : Lexeme} (h : l ∈ lexemesFrom n ps) :
    ∃ p ∈ ps, ∃ m, l ∈ p.lexemes m := by
  induction ps generalizing n with
  | nil => cases h
  | cons p ps ih =>
    rcases List.mem_append.mp h with here | later
    · exact ⟨p, List.mem_cons_self, n, here⟩
    · obtain ⟨q, listed, m, there⟩ := ih later
      exact ⟨q, List.mem_cons_of_mem p listed, m, there⟩

/-! ### Writing parts -/

namespace Draft

/-- The next part cannot be taken for a continuation of the text. -/
def Fits (s : Draft) (p : Part) : Prop :=
  (scan s.text).mode = .between ∨ p.isApart = true

/-- A part that fits is scanned by itself. -/
theorem scan_add (read : lexemes? s.text = some ls) (fits : s.Fits p) :
    scan (s.add p).text = (scan (p.text (s.count + 1))).after ls := by
  rw [add, scan_append]
  refine Scanner.run_of_lexemes? read (fits.imp_right fun apart => ?_)
  cases p with
  | fixed text => exact apart
  | identifier name => cases apart
  | param value => cases apart

/-- Writing a part adds its lexemes. -/
theorem Scanned.add (h : s.Scanned ls) (fits : s.Fits p) (plain : p.Plain) :
    (s.add p).Scanned (ls ++ p.lexemes (s.count + 1)) := by
  constructor
  · rw [lexemes?, scan_add h.scanned fits, Scanner.lexemes?_after]
    have single : (scan (p.text (s.count + 1))).lexemes? = some (p.lexemes (s.count + 1)) :=
      lexemes?_text plain (s.count + 1)
    rw [single, Option.map_some]
  · have next : 1 + 1 * s.count = s.count + 1 := by omega
    rw [List.filterMap_append, h.numbered, filterMap_param?_lexemes plain, ← List.map_append,
      ← next, List.range'_append]
    rfl

/-- After an open part anything fits, and before an apart one too. -/
theorem fits_add {q : Part} (h : s.Scanned ls) (fits : s.Fits p)
    (apart : p.isOpen = true ∨ q.isApart = true) : (s.add p).Fits q := by
  refine apart.imp_left fun opened => ?_
  rw [scan_add h.scanned fits]
  cases p with
  | fixed text => exact of_decide_eq_true opened
  | identifier name => cases opened
  | param value => cases opened

/-- Writing parts that stay apart adds their lexemes in order. -/
theorem Scanned.foldl (h : s.Scanned ls) (first : ∀ p ∈ ps.head?, s.Fits p) (apart : KeptApart ps)
    (plain : ∀ p ∈ ps, p.Plain) :
    (ps.foldl Draft.add s).Scanned (ls ++ lexemesFrom (s.count + 1) ps) := by
  induction ps generalizing s ls with
  | nil =>
    rw [lexemesFrom, List.append_nil]
    exact h
  | cons p ps ih =>
    obtain ⟨here, others⟩ := List.forall_mem_cons.mp plain
    obtain ⟨next, apart⟩ := List.isChain_cons.mp apart
    have fits := first p rfl
    have step := ih (h.add fits here) (fun q hq => fits_add h fits (next q hq)) apart others
    have count : s.count + p.values.length + 1 = s.count + 1 + p.values.length := by omega
    rw [List.foldl_cons, lexemesFrom, ← List.append_assoc, ← count]
    exact step

/-- A draft of parts that stay apart is their lexemes. -/
theorem scanned_write (apart : KeptApart ps) (plain : ∀ p ∈ ps, p.Plain) :
    (write ps).Scanned (lexemesFrom 1 ps) := by
  have empty : Scanned {} [] := ⟨rfl, rfl⟩
  have step := empty.foldl (fun p _ => .inl rfl) apart plain
  rwa [List.nil_append] at step

end Draft

end SqlBridge.Sql
