import SqlBridge.Text.Basic

/-!
# Tokens

The tokens of a statement. A word is anything bare: a keyword, a name, a number or a placeholder;
which of them it is depends on where it stands.
-/

namespace SqlBridge

inductive Token where
  | leftParen
  | rightParen
  | comma
  | semicolon
  /-- A run of operator characters. -/
  | symbol (text : String)
  /-- A quoted literal, without its quotes. -/
  | quoted (text : String)
  /-- A name that is always a name, without its quotes and with its parts joined by points. -/
  | identifier (name : String)
  /-- Any other run of characters. -/
  | word (text : String)
deriving DecidableEq, Inhabited, Repr

namespace Token

def isSymbolChar (c : Char) : Bool :=
  c = '=' || c = '<' || c = '>' || c = '!' || c = '&' || c = '|'

def isQuote (c : Char) : Bool :=
  c = '\'' || c = '"' || c = '\x60'

/-- The quotes that may enclose a part of a qualified name. -/
def isNameQuote (c : Char) : Bool :=
  c = '"' || c = '\x60'

def punctuation? : Char → Option Token
  | '(' => some .leftParen
  | ')' => some .rightParen
  | ',' => some .comma
  | ';' => some .semicolon
  | _ => none

def isWordChar (c : Char) : Bool :=
  !(Text.isBlank c || isSymbolChar c || (punctuation? c).isSome || isQuote c)

/-- Whether the token is a keyword, without regard to case. Only a word can be one. -/
def isKeyword (keyword : String) : Token → Bool
  | .word text => Text.sameWord text keyword
  | _ => false

/-- The token as messages show it. Quotes inside a quoted text are left as they are. -/
def display : Token → String
  | .leftParen => "("
  | .rightParen => ")"
  | .comma => ","
  | .semicolon => ";"
  | .symbol text => text
  | .quoted text => "'" ++ text ++ "'"
  | .identifier name => "\x60" ++ name ++ "\x60"
  | .word text => text

/-- Words that name nothing unless they are quoted. -/
def reservedWords : List String :=
  ["AND", "AS", "BY", "CROSS", "DELETE", "DISTINCT", "FROM", "FULL", "GROUP", "IGNORE", "INNER",
   "INSERT", "INTO", "JOIN", "LEFT", "LIKE", "LIMIT", "NATURAL", "OFFSET", "ON", "OR", "ORDER",
   "OUTER", "RIGHT", "SELECT", "SET", "UPDATE", "VALUES", "WHERE"]

def isReserved (text : String) : Bool :=
  reservedWords.any fun w => Text.sameWord w text

/-- The name that a token gives, if it gives one: a word that is not reserved, or a quoted text. -/
def name? : Token → Option String
  | .word text => if isReserved text then none else some text
  | .identifier name => some name
  | .quoted text => some text
  | _ => none

def isValue : Token → Bool
  | .word _ => true
  | .quoted _ => true
  | _ => false

end Token

end SqlBridge
