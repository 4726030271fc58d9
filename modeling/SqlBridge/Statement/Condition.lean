import SqlBridge.Predicate.Basic
import SqlBridge.Statement.Reader

/-!
# WHERE clauses

A clause is a chain of terms with connectives between them. A term is a comparison, a LIKE
condition, or a chain in parentheses. The clause goes on until a closing parenthesis, a keyword of
the clauses after it, or the end; the depth of parentheses is limited by the settings.

In a LIKE pattern `%` stands for any run of characters and `_` for any single one. A backslash makes
a wildcard or a backslash after it literal, and before anything else it is a literal itself. The
regular expression of a pattern is searched for, not matched as a whole, so it is anchored at each
end at which the pattern does not start or end with `%`.
-/

namespace SqlBridge.Like

/-! ### LIKE patterns -/

inductive Piece where
  /-- Any run of characters. -/
  | anyRun
  /-- Any one character. -/
  | anyOne
  /-- This character. -/
  | literal (c : Char)
deriving DecidableEq, Inhabited, Repr

/-- Whether a backslash makes the character literal. -/
def isEscapable (c : Char) : Bool :=
  c = '%' || c = '_' || c = '\\'

def pieces : List Char → List Piece
  | [] => []
  | '%' :: rest => .anyRun :: pieces rest
  | '_' :: rest => .anyOne :: pieces rest
  | '\\' :: c :: rest =>
    if isEscapable c then .literal c :: pieces rest else .literal '\\' :: pieces (c :: rest)
  | c :: rest => .literal c :: pieces rest

/-- Whether a character has a meaning of its own in a regular expression. -/
def isSpecial (c : Char) : Bool :=
  ['\\', '.', '+', '*', '?', '(', ')', '|', '[', ']', '\x7b', '\x7d', '^', '$'].contains c

def Piece.regex : Piece → List Char
  | .anyRun => ['.', '*']
  | .anyOne => ['.']
  | .literal c => if isSpecial c then ['\\', c] else [c]

def toRegex (pattern : String) : String :=
  let all := pieces pattern.toList
  let openStart := all.head? = some .anyRun
  let rest := if openStart then all.drop 1 else all
  let openEnd := rest.getLast? = some .anyRun ∨ (openStart ∧ rest = [])
  let inner := if openEnd then rest.dropLast else rest
  String.ofList ((if openStart then [] else ['^']) ++ inner.flatMap Piece.regex
    ++ (if openEnd then [] else ['$']))

end SqlBridge.Like

/-! ### Clauses -/

namespace SqlBridge.Condition

def connective? : Token → Option Logic
  | .word text => Logic.ofSpelling? text
  | .symbol text => Logic.ofSpelling? text
  | _ => none

/-- Whether a token starts the clause after a WHERE clause. -/
def isBoundary (t : Token) : Bool :=
  ["ORDER", "LIMIT", "GROUP"].any fun keyword => t.isKeyword keyword

/-- The field that a token names where a condition may start: a word other than a connective, or a
quoted text. Reserved words count as well. -/
def field? : Token → Option String
  | .word text => if (Logic.ofSpelling? text).isSome then none else some text
  | .identifier name => some name
  | .quoted text => some text
  | _ => none

/-- Whether a chain goes on after a term, and with which connective. -/
def afterTerm (t : Token) : Except CompileError (Option Logic) :=
  if t = .rightParen ∨ isBoundary t then .ok none
  else match connective? t with
    | some logic => .ok (some logic)
    | none => .error (.unexpectedToken t)

/-- The pattern that a value is for LIKE. Null is none, and what is not a string counts as it is
displayed. -/
def pattern? : Value → Option String
  | .null => none
  | .str s => some s
  | value => some value.display

def afterField (ctx : Context) (field : String) : Reader Predicate := do
  match ← Reader.next with
  | none => Reader.fail (.malformedClause (.operatorExpected field))
  | some (.symbol text) =>
    match Operator.ofSymbol? text with
    | none => Reader.fail (.unexpectedToken (.symbol text))
    | some operator => return .comparison field operator (← ctx.value)
  | some token =>
    if token.isKeyword "LIKE" then
      match pattern? (← ctx.value) with
      | some pattern =>
        return .pattern field (Like.toRegex pattern) ctx.settings.caseInsensitiveLike
      | none => Reader.fail (.malformedClause (.nullPattern field))
    else Reader.fail (.unexpectedToken token)

def condition (ctx : Context) : Option Token → Reader Predicate
  | none => Reader.fail (.malformedClause .conditionExpected)
  | some token =>
    match field? token with
    | some field => afterField ctx field
    | none => Reader.fail (.unexpectedToken token)

def chain (term : Reader Predicate) : Reader Predicate := do
  let first ← term
  let rest ← Reader.loop afterTerm (fun before logic => do return before ++ [(logic, ← term)]) []
  return .ofChain first rest

/-- Take a term, inside which parentheses may nest `room` levels deep. -/
def term (ctx : Context) : Nat → Reader Predicate
  | 0 => do
    match ← Reader.next with
    | some .leftParen =>
      Reader.fail (.malformedClause (.nestedTooDeep ctx.settings.maxPredicateDepth.toNat))
    | token => condition ctx token
  | room + 1 => do
    match ← Reader.next with
    | some .leftParen =>
      if ← Reader.at? .rightParen then Reader.fail (.malformedClause .emptyParentheses)
      else do
        let inner ← chain (term ctx room)
        if ← Reader.eat .rightParen then return inner
        else Reader.fail (.malformedClause .unbalancedParentheses)
    | token => condition ctx token

/-- Take the conditions of a WHERE clause, its keyword being taken. -/
def predicate (ctx : Context) : Reader Predicate := do
  let p ← chain (term ctx ctx.settings.maxPredicateDepth.toNat)
  if ← Reader.at? .rightParen then Reader.fail (.unexpectedToken .rightParen)
  else return p

def whereClause? (ctx : Context) : Reader (Option Predicate) := do
  if ← Reader.eatKeyword "WHERE" then return some (← predicate ctx)
  else return none

end SqlBridge.Condition
