import SqlBridge.Token.Basic
import SqlBridge.Value

/-!
# Why a statement does not compile

Each error is a cause; its wording is in `CompileError.message` alone.
-/

namespace SqlBridge

inductive Fault where
  | unterminatedQuote (quote : Char) (text : String)
  | namePartExpected (name : String)
  | keywordExpected (keyword : String) (found : Option Token)
  | tokenExpected (token : Token) (found : Option Token)
  | nameExpected
  | valueExpected
  | negativeCount (i : Int)
  | countNotInteger (value : Value)
  | nestedTooDeep (limit : Nat)
  | emptyParentheses
  | unbalancedParentheses
  | conditionExpected
  | operatorExpected (field : String)
  | nullPattern (field : String)
  | joinNotEquality (table : String)
  | emptyList
  | valuesExpected (table : String)
  | repeatedColumn (column : String)
  | repeatedArgument (argument : String)
  | repeatedAssignment (field : String)
  | columnsExpected
  | starWithColumns
  | assignmentExpected (field : String)
deriving DecidableEq, Repr

/-- What stands where something else was expected. -/
def Fault.found : Option Token → String
  | some token => "'" ++ token.display ++ "'"
  | none => "the end of the statement"

def Fault.message : Fault → String
  | .unterminatedQuote quote text => "unterminated quoted literal " ++ quote.toString ++ text
  | .namePartExpected name => "expected a name after " ++ name
  | .keywordExpected keyword token => "expected " ++ keyword ++ ", found " ++ found token
  | .tokenExpected expected token =>
    "expected '" ++ expected.display ++ "', found " ++ found token
  | .nameExpected => "expected a name, found the end of the statement"
  | .valueExpected => "expected a value, found the end of the statement"
  | .negativeCount i => "LIMIT values must not be negative, found " ++ i.repr
  | .countNotInteger value => "LIMIT values must be integers, found " ++ value.display
  | .nestedTooDeep limit => "parentheses nested deeper than " ++ limit.repr ++ " levels"
  | .emptyParentheses => "empty parentheses"
  | .unbalancedParentheses => "unbalanced parentheses"
  | .conditionExpected => "expected a condition, found the end of the statement"
  | .operatorExpected field => "expected an operator after " ++ field
  | .nullPattern field => "LIKE pattern for " ++ field ++ " must not be NULL"
  | .joinNotEquality table => "join condition on " ++ table ++ " must be an equality"
  | .emptyList => "empty list"
  | .valuesExpected table => "expected VALUES after the column list of " ++ table
  | .repeatedColumn column => "column " ++ column ++ " is listed more than once"
  | .repeatedArgument argument => "argument " ++ argument ++ " is passed more than once"
  | .repeatedAssignment field => "field " ++ field ++ " is set more than once"
  | .columnsExpected => "expected a column list after SELECT"
  | .starWithColumns => "'*' cannot be combined with other columns"
  | .assignmentExpected field => "expected '=' after " ++ field ++ " in SET"

inductive CompileError where
  /-- The statement does not start with a keyword of a statement. -/
  | unrecognizedStatement (start : String)
  /-- A clause is not what its grammar asks for. -/
  | malformedClause (fault : Fault)
  /-- An INSERT has not as many values as columns. -/
  | columnCountMismatch (columns values : Nat)
  /-- A placeholder has no parameter. -/
  | missingBinding (name : String)
  /-- A token stands where it cannot. -/
  | unexpectedToken (token : Token)
  /-- A join is of a kind that has no lookup. -/
  | unsupportedJoin (kind : String)
  /-- Not exactly one side of a join condition names the joined table. -/
  | ambiguousJoinField (left right : String)
deriving DecidableEq, Repr

def CompileError.message : CompileError → String
  | .unrecognizedStatement start => "Unrecognized statement: '" ++ start ++ "'."
  | .malformedClause fault => "Malformed clause: " ++ fault.message ++ "."
  | .columnCountMismatch columns values =>
    "Statement names " ++ columns.repr ++ " columns but supplies " ++ values.repr ++ " values."
  | .missingBinding name => "No parameter bound for placeholder ':" ++ name ++ "'."
  | .unexpectedToken token => "Unexpected token '" ++ token.display ++ "'."
  | .unsupportedJoin kind => kind ++ " joins are not supported, only LEFT JOIN."
  | .ambiguousJoinField left right =>
    "Cannot tell which side of join condition '" ++ left ++ " = " ++ right
      ++ "' refers to the joined table."

end SqlBridge
