import SqlBridge.Proofs.Statement.Text

/-!
# Statements in any style

A statement is put together from keywords and tokens. A style says how each keyword is spelt, which
blanks stand between tokens, and what stands around the statement. In every style the text has the
tokens that the statement is put together from, with the keywords in their spelling.
-/

namespace SqlBridge

inductive Keyword where
  | select
  | distinct
  | as_
  | from_
  | left
  | outer
  | join
  | on
  | where_
  | order
  | by_
  | asc
  | desc
  | limit
  | offset
deriving DecidableEq

def Keyword.text : Keyword → String
  | .select => "SELECT"
  | .distinct => "DISTINCT"
  | .as_ => "AS"
  | .from_ => "FROM"
  | .left => "LEFT"
  | .outer => "OUTER"
  | .join => "JOIN"
  | .on => "ON"
  | .where_ => "WHERE"
  | .order => "ORDER"
  | .by_ => "BY"
  | .asc => "ASC"
  | .desc => "DESC"
  | .limit => "LIMIT"
  | .offset => "OFFSET"

inductive Piece where
  | keyword (k : Keyword)
  | token (t : Token)

def Piece.name (text : String) : Piece :=
  .token (.identifier text)

/-- The token of a piece can stand in a text, and it is no semicolon. -/
def Piece.Plain : Piece → Prop
  | .keyword _ => True
  | .token t => t.IsLexeme ∧ t ≠ .semicolon

/-- The token that a piece may become: a keyword in any case, or the token itself. -/
inductive Piece.Spelt : Piece → Token → Prop where
  | keyword {k : Keyword} {text : String} (same : Text.sameWord text k.text = true) :
      Spelt (.keyword k) (.word text)
  | token {t : Token} : Spelt (.token t) t

/-- The tokens are the pieces in some spelling. -/
abbrev Spelling (pieces : List Piece) (tokens : List Token) : Prop :=
  List.Forall₂ Piece.Spelt pieces tokens

theorem Spelling.append {as bs : List Piece} {ts : List Token} (h : Spelling (as ++ bs) ts) :
    ∃ ps qs, ts = ps ++ qs ∧ Spelling as ps ∧ Spelling bs qs := by
  induction as generalizing ts with
  | nil => exact ⟨[], ts, rfl, .nil, h⟩
  | cons a as ih =>
    cases h with
    | @cons _ t _ ts first others =>
      obtain ⟨ps, qs, rfl, left, right⟩ := ih others
      exact ⟨t :: ps, qs, rfl, .cons first left, right⟩

theorem Spelling.keyword {k : Keyword} {pieces : List Piece} {ts : List Token}
    (h : Spelling (.keyword k :: pieces) ts) :
    ∃ t us, ts = t :: us ∧ t.isKeyword k.text = true ∧ Spelling pieces us := by
  cases h with
  | cons first others =>
    cases first with
    | keyword same => exact ⟨_, _, rfl, same, others⟩

theorem Spelling.token {t : Token} {pieces : List Piece} {ts : List Token}
    (h : Spelling (.token t :: pieces) ts) : ∃ us, ts = t :: us ∧ Spelling pieces us := by
  cases h with
  | cons first others =>
    cases first
    exact ⟨_, rfl, others⟩

theorem Spelling.nil {ts : List Token} (h : Spelling [] ts) : ts = [] := by
  cases h
  rfl

theorem Spelling.tokens {us ts : List Token} (h : Spelling (us.map .token) ts) : ts = us := by
  induction us generalizing ts with
  | nil => exact h.nil
  | cons u us ih =>
    obtain ⟨vs, rfl, others⟩ := Spelling.token h
    rw [ih others]

/-- The tokens start with one of the keywords, or there are none. -/
def OpensWith (ks : List Keyword) (rest : List Token) : Prop :=
  ∀ t ∈ rest.head?, ∃ k ∈ ks, t.isKeyword k.text = true

theorem opensWith_nil {ks : List Keyword} : OpensWith ks [] := by
  simp [OpensWith]

theorem opensWith_cons {ks : List Keyword} {k : Keyword} {t : Token} {ts : List Token}
    (listed : k ∈ ks) (here : t.isKeyword k.text = true) : OpensWith ks (t :: ts) := by
  intro u hu
  obtain rfl : t = u := by simpa using hu
  exact ⟨k, listed, here⟩

theorem OpensWith.mono {ks ls : List Keyword} {rest : List Token} (h : OpensWith ks rest)
    (more : ∀ k ∈ ks, k ∈ ls) : OpensWith ls rest := by
  intro t ht
  obtain ⟨k, listed, here⟩ := h t ht
  exact ⟨k, more k listed, here⟩

theorem OpensWith.not_atKeyword {ks : List Keyword} {rest : List Token} {word : String}
    (h : OpensWith ks rest) (apart : ∀ k ∈ ks, Text.upper k.text ≠ Text.upper word) :
    ¬ Reader.AtKeyword word rest := by
  rcases rest with _ | ⟨t, rest⟩
  · simp
  · intro at_
    obtain ⟨k, listed, here⟩ := h t rfl
    exact apart k listed (Token.upper_eq_of_isKeyword here (by simpa using at_))

/-- What opens with a keyword is no mark. -/
theorem OpensWith.head?_ne {ks : List Keyword} {rest : List Token} {t : Token}
    (h : OpensWith ks rest) (mark : ∀ text, t ≠ .word text) : rest.head? ≠ some t := by
  intro first
  obtain ⟨k, _, here⟩ := h t first
  cases t with
  | word text => exact mark text rfl
  | _ => cases here

/-- How a statement is written down. Keywords and gaps are counted from zero. -/
structure Style where
  keyword : Nat → Keyword → String
  gap : Nat → List Char
  before : List Char
  after : List Char
  sameWord : ∀ n k, Text.sameWord (keyword n k) k.text = true
  gap_ne_nil : ∀ n, gap n ≠ []
  gap_blank : ∀ n, ∀ c ∈ gap n, Text.isBlank c = true
  before_blank : ∀ c ∈ before, Text.isBlank c = true
  after_skipped : ∀ c ∈ after, c = ';' ∨ Text.isBlank c = true

namespace Style

def tokens (style : Style) : Nat → List Piece → List Token
  | _, [] => []
  | n, .keyword k :: pieces => .word (style.keyword n k) :: style.tokens (n + 1) pieces
  | n, .token t :: pieces => t :: style.tokens (n + 1) pieces

/-- The text of tokens with a gap before each of them, the first gap having the number `n`. -/
def gapped (style : Style) : Nat → List Token → List Char
  | _, [] => []
  | n, t :: ts => style.gap n ++ (t.written ++ style.gapped (n + 1) ts)

def text (style : Style) : List Token → List Char
  | [] => []
  | t :: ts => t.written ++ style.gapped 0 ts

def print (style : Style) (pieces : List Piece) : String :=
  String.ofList (style.before ++ (style.text (style.tokens 0 pieces) ++ style.after))

/-- Keywords in capitals with single spaces between tokens and nothing around. -/
def plain : Style where
  keyword _ k := k.text
  gap _ := [' ']
  before := []
  after := []
  sameWord _ _ := Text.sameWord_refl _
  gap_ne_nil := by simp
  gap_blank := by simp; decide
  before_blank := by simp
  after_skipped := by simp

variable {style : Style} {n : Nat}

theorem spelt_tokens (style : Style) (n : Nat) (pieces : List Piece) :
    List.Forall₂ Piece.Spelt pieces (style.tokens n pieces) := by
  induction pieces generalizing n with
  | nil => exact .nil
  | cons piece pieces ih =>
    cases piece with
    | keyword k => exact .cons (.keyword (style.sameWord n k)) (ih (n + 1))
    | token t => exact .cons .token (ih (n + 1))

theorem plain_of_spelt {piece : Piece} {t : Token} (spelt : piece.Spelt t) (plain : piece.Plain) :
    t.IsLexeme ∧ t ≠ .semicolon := by
  cases spelt with
  | @keyword k text same =>
    have capital : k.text.toList.all Char.isUpper = true := by cases k <;> decide
    have letters := Text.isAlpha_of_sameWord same (List.all_eq_true.mp capital)
    refine ⟨⟨?_, fun c hc => Token.isWordChar_of_isAlphanum ?_⟩, by simp⟩
    · intro none
      have empty : k.text.toList.map Char.toUpper = [] := by
        rw [← Text.sameWord_iff_map_eq.mp same, none, List.map_nil]
      cases k <;> simp [Keyword.text] at empty
    · rw [Char.isAlphanum, letters c hc, Bool.true_or]
  | token => exact plain

/-- Tokens that are set apart by gaps are read back. -/
theorem scans_gapped {ts : List Token} (lexemes : ∀ t ∈ ts, t.IsLexeme) :
    Token.Delimited (style.gapped n ts) ∧ Token.Scans (style.gapped n ts) ts [] := by
  induction ts generalizing n with
  | nil => exact ⟨by simp [Token.Delimited, gapped], Token.scans_nil⟩
  | cons t ts ih =>
    obtain ⟨first, others⟩ := List.forall_mem_cons.mp lexemes
    obtain ⟨apart, tail⟩ := ih (n := n + 1) others
    constructor
    · intro c hc
      obtain ⟨d, ds, hgap⟩ := List.exists_cons_of_ne_nil (style.gap_ne_nil n)
      rw [gapped, hgap] at hc
      obtain rfl : d = c := by simpa using hc
      exact .inl (style.gap_blank n d (by simp [hgap]))
    · have read : Token.Scans t.written [t] (style.gapped (n + 1) ts ++ []) :=
        Token.scans_written first (by rwa [List.append_nil])
      exact (Token.scans_blanks (style.gap_blank n)).append (read.append tail)

theorem scans_text {ts : List Token} (lexemes : ∀ t ∈ ts, t.IsLexeme) :
    Token.Scans (style.text ts) ts [] := by
  cases ts with
  | nil => exact Token.scans_nil
  | cons t ts =>
    obtain ⟨first, others⟩ := List.forall_mem_cons.mp lexemes
    obtain ⟨apart, tail⟩ := style.scans_gapped (n := 0) others
    have read : Token.Scans t.written [t] (style.gapped 0 ts ++ []) :=
      Token.scans_written first (by rwa [List.append_nil])
    exact read.append tail

/-- Tokens are read back, in whatever style they are written down, exactly if each of them can stand
in a text; and such are the tokens that are read in any text. -/
theorem tokenize_text_iff (style : Style) (ts : List Token) :
    (Token.tokenize (String.ofList (style.text ts)) = .ok ts ↔ ∀ t ∈ ts, t.IsLexeme) ∧
    ((∃ text, Token.tokenize text = .ok ts) ↔ ∀ t ∈ ts, t.IsLexeme) := by
  have printed : (∀ t ∈ ts, t.IsLexeme) →
      Token.tokenize (String.ofList (style.text ts)) = .ok ts := by
    intro lexemes
    rw [Token.tokenize_eq_ok_iff, String.toList_ofList]
    exact (style.scans_text lexemes).scan_eq
  refine ⟨⟨Token.isLexeme_of_tokenize, printed⟩, ?_, fun lexemes => ⟨_, printed lexemes⟩⟩
  rintro ⟨text, read⟩
  exact Token.isLexeme_of_tokenize read

theorem exists_gapped_concat (style : Style) (n : Nat) (t : Token) (ts : List Token) :
    ∃ cs, style.gapped n (ts ++ [t]) = cs ++ t.written := by
  induction ts generalizing n with
  | nil => exact ⟨style.gap n, by simp [gapped]⟩
  | cons u ts ih =>
    obtain ⟨cs, h⟩ := ih (n + 1)
    exact ⟨style.gap n ++ (u.written ++ cs), by simp [gapped, h]⟩

theorem exists_text_concat (style : Style) (t : Token) (ts : List Token) :
    ∃ cs, style.text (ts ++ [t]) = cs ++ t.written := by
  cases ts with
  | nil => exact ⟨[], by simp [text, gapped]⟩
  | cons u ts =>
    obtain ⟨cs, h⟩ := style.exists_gapped_concat 0 t ts
    exact ⟨u.written ++ cs, by simp [text, h]⟩

/-- A statement without semicolons starts and ends visibly. -/
theorem visible_text {ts : List Token} (filled : ts ≠ [])
    (inside : ∀ t ∈ ts, t.IsLexeme ∧ t ≠ .semicolon) :
    ∃ c d, (style.text ts).head? = some c ∧ (style.text ts).getLast? = some d ∧
      Token.Visible c ∧ Token.Visible d := by
  obtain ⟨first, others, rfl⟩ := List.exists_cons_of_ne_nil filled
  obtain ⟨c, _, start, _, hc, _⟩ :=
    Token.visible_written (inside first List.mem_cons_self).1 (inside first List.mem_cons_self).2
  obtain ⟨before, last, split⟩ : ∃ before last, first :: others = before ++ [last] :=
    ⟨_, _, (List.dropLast_append_getLast filled).symm⟩
  have listed : last ∈ first :: others := by simp [split]
  obtain ⟨lexeme, apart⟩ := inside last listed
  obtain ⟨_, d, _, finish, _, hd⟩ := Token.visible_written lexeme apart
  refine ⟨c, d, ?_, ?_, hc, hd⟩
  · rw [text, List.head?_append, start, Option.some_or]
  · obtain ⟨cs, h⟩ := style.exists_text_concat last before
    rw [split, h, List.getLast?_append, finish, Option.some_or]

end Style

/-- In every style a statement compiles, if its pieces are a statement however they are spelt. -/
theorem compile_print {style : Style} {settings : Settings} {params : Params} {pieces : List Piece}
    {o : Statement.Opening} {d : Descriptor}
    (plain : ∀ x ∈ pieces, x.Plain)
    (form : ∀ tokens, List.Forall₂ Piece.Spelt pieces tokens →
      o.FormOf ⟨settings, params⟩ tokens d) :
    compile settings (style.print pieces) params = .ok d := by
  have spelt := style.spelt_tokens 0 pieces
  have formed := form _ spelt
  have all : ∀ t ∈ style.tokens 0 pieces, t.IsLexeme ∧ t ≠ .semicolon := by
    generalize style.tokens 0 pieces = tokens at spelt
    clear formed form
    induction spelt with
    | nil => simp
    | cons first _ ih =>
      obtain ⟨head, tail⟩ := List.forall_mem_cons.mp plain
      exact List.forall_mem_cons.mpr ⟨Style.plain_of_spelt first head, ih tail⟩
  have filled : style.tokens 0 pieces ≠ [] := by
    obtain ⟨text, q, h, _⟩ := formed.opens
    simp [h]
  obtain ⟨c, d, first, last, hc, hd⟩ := style.visible_text filled all
  exact compile_of_scans style.before_blank style.after_skipped first last hc hd
    (style.scans_text fun t ht => (all t ht).1) formed

end SqlBridge
