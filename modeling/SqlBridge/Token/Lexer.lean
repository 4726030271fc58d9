import SqlBridge.CompileError
import SqlBridge.Text.Basic
import SqlBridge.Text.Quoted

/-!
# From text to tokens

Blanks separate tokens and are otherwise skipped. Parentheses, commas and semicolons are tokens of
their own; operator characters and word characters form maximal runs. A name may have several
parts joined by points, some of them quoted: such a name is one identifier.
-/

namespace SqlBridge.Token

def readQuoted (quote : Char) (cs : List Char) : Except Fault (List Char × List Char) :=
  match Text.readQuoted quote cs with
  | .ok r => .ok r
  | .error text => .error (.unterminatedQuote quote (String.ofList text))

/-- Read one part of a qualified name, in quotes or bare; `name` is what stands before it. -/
def readNamePart (name : List Char) : List Char → Except Fault (List Char × List Char)
  | [] => .error (.namePartExpected (String.ofList name))
  | c :: rest =>
    if isNameQuote c then readQuoted c rest
    else if isWordChar c then .ok (c :: rest.takeWhile isWordChar, rest.dropWhile isWordChar)
    else .error (.namePartExpected (String.ofList name))

theorem length_lt_of_readQuoted {quote : Char} {cs text after : List Char}
    (h : readQuoted quote cs = .ok (text, after)) : after.length < cs.length := by
  unfold readQuoted at h
  split at h
  · next r hr => cases h; exact Text.length_lt_of_readQuoted hr
  · cases h

theorem length_lt_of_readNamePart {name cs part after : List Char}
    (h : readNamePart name cs = .ok (part, after)) : after.length < cs.length := by
  cases cs with
  | nil => cases h
  | cons c rest =>
    simp only [readNamePart] at h
    split at h
    · exact Nat.lt_succ_of_lt (length_lt_of_readQuoted h)
    · split at h
      · cases h; exact Nat.lt_succ_of_le (Text.length_dropWhile_le _ _)
      · cases h

/-- The name with the point that follows it, if one does, and the rest of the text. -/
def takePoint (name : List Char) : List Char → List Char × List Char
  | '.' :: rest => (name ++ ['.'], rest)
  | cs => (name, cs)

theorem length_takePoint_le (name cs : List Char) : (takePoint name cs).2.length ≤ cs.length := by
  unfold takePoint
  split <;> simp

/-- Read on in a qualified name after the part `name`: a point, or a name that ends in one, calls
for another part. -/
def readQualified (name cs : List Char) : Except Fault (List Char × List Char) :=
  let pointed := takePoint name cs
  if pointed.1.getLast? = some '.' then
    match h : readNamePart pointed.1 pointed.2 with
    | .error e => .error e
    | .ok (part, after) =>
      have : after.length < cs.length :=
        Nat.lt_of_lt_of_le (length_lt_of_readNamePart h) (length_takePoint_le name cs)
      readQualified (pointed.1 ++ part) after
  else .ok pointed
termination_by cs.length

theorem length_le_of_readQualified {name cs whole after : List Char}
    (h : readQualified name cs = .ok (whole, after)) : after.length ≤ cs.length := by
  fun_induction readQualified name cs with
  | case1 => cases h
  | case2 name cs pointed _ part rest hr lt ih => exact Nat.le_of_lt (Nat.lt_of_le_of_lt (ih h) lt)
  | case3 name cs pointed _ =>
    have same : pointed.2 = after := congrArg Prod.snd (Except.ok.inj h)
    exact same ▸ length_takePoint_le name cs

/-- Read on after a name in quotes: more parts make an identifier of it, and alone it is an
identifier in grave accents and a literal in double quotes. -/
def readEnclosed (quote : Char) (rest : List Char) : Except Fault (Token × List Char) :=
  match readQuoted quote rest with
  | .error e => .error e
  | .ok (text, after) =>
    if after.head? = some '.' then
      match readQualified text after with
      | .error e => .error e
      | .ok (name, after) => .ok (.identifier (String.ofList name), after)
    else if quote = '"' then .ok (.quoted (String.ofList text), after)
    else .ok (.identifier (String.ofList text), after)

/-- Read the word that starts with the character `c`. A word that ends in a point goes on with a
quoted part, and is an identifier then. -/
def readWord (c : Char) (rest : List Char) : Except Fault (Token × List Char) :=
  let text := c :: rest.takeWhile isWordChar
  let after := rest.dropWhile isWordChar
  if text.getLast? = some '.' ∧ after.head?.any isNameQuote then
    match readQualified text after with
    | .error e => .error e
    | .ok (name, after) => .ok (.identifier (String.ofList name), after)
  else .ok (.word (String.ofList text), after)

/-- Read the token that starts with the character `c`, which is not blank. -/
def readToken (c : Char) (rest : List Char) : Except Fault (Token × List Char) :=
  match punctuation? c with
  | some token => .ok (token, rest)
  | none =>
    if c = '\'' then
      match readQuoted c rest with
      | .error e => .error e
      | .ok (text, after) => .ok (.quoted (String.ofList text), after)
    else if isNameQuote c then readEnclosed c rest
    else if isSymbolChar c then
      .ok (.symbol (String.ofList (c :: rest.takeWhile isSymbolChar)),
        rest.dropWhile isSymbolChar)
    else readWord c rest

theorem length_le_of_readEnclosed {quote : Char} {rest after : List Char} {t : Token}
    (h : readEnclosed quote rest = .ok (t, after)) : after.length ≤ rest.length := by
  unfold readEnclosed at h
  split at h
  · cases h
  · next text middle hq =>
    have shorter := Nat.le_of_lt (length_lt_of_readQuoted hq)
    split at h
    · split at h
      · cases h
      · next name left hn => cases h; exact Nat.le_trans (length_le_of_readQualified hn) shorter
    · split at h <;> cases h <;> exact shorter

theorem length_le_of_readWord {c : Char} {rest after : List Char} {t : Token}
    (h : readWord c rest = .ok (t, after)) : after.length ≤ rest.length := by
  unfold readWord at h
  have shorter := Text.length_dropWhile_le isWordChar rest
  dsimp only at h
  split at h
  · split at h
    · cases h
    · next name left hn => cases h; exact Nat.le_trans (length_le_of_readQualified hn) shorter
  · cases h; exact shorter

/-- What follows a token is no longer than what follows its first character. -/
theorem length_le_of_readToken {c : Char} {rest after : List Char} {t : Token}
    (h : readToken c rest = .ok (t, after)) : after.length ≤ rest.length := by
  unfold readToken at h
  split at h
  · cases h; exact Nat.le_refl _
  · split at h
    · split at h
      · cases h
      · next hq => cases h; exact Nat.le_of_lt (length_lt_of_readQuoted hq)
    · split at h
      · exact length_le_of_readEnclosed h
      · split at h
        · cases h; exact Text.length_dropWhile_le _ _
        · exact length_le_of_readWord h

def scan (cs : List Char) : Except Fault (List Token) :=
  match cs with
  | [] => .ok []
  | c :: rest =>
    if Text.isBlank c then scan rest
    else
      match h : readToken c rest with
      | .error e => .error e
      | .ok (t, after) =>
        have : after.length < rest.length + 1 := Nat.lt_succ_of_le (length_le_of_readToken h)
        (scan after).map (t :: ·)
termination_by cs.length

def tokenize (text : String) : Except CompileError (List Token) :=
  match scan text.toList with
  | .ok tokens => .ok tokens
  | .error fault => .error (.malformedClause fault)

end SqlBridge.Token
