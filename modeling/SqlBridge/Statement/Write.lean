import SqlBridge.Descriptor.Basic
import SqlBridge.Statement.Condition
import SqlBridge.Statement.Reader

/-!
# Statements that write, and procedure calls

* `INSERT [IGNORE] INTO table (columns) VALUES (values)`. Columns and values are paired in order;
  how many there are is compared before any value is looked up.
* `UPDATE table SET field = value[, field = value...] [WHERE ...]`. A field is set once.
* `DELETE FROM table [WHERE ...]`.
* `CALL name(arguments)`, also with EXEC or EXECUTE, or `BEGIN name(arguments); END`. A placeholder
  is passed under its own name, and a literal under one made of its position, counted from one.
-/

namespace SqlBridge.Insert

/-- Take a list in parentheses, which must not be empty. -/
def inParentheses {α : Type} (item : Reader α) : Reader (List α) := do
  Reader.expect .leftParen
  if ← Reader.at? .rightParen then Reader.fail (.malformedClause .emptyList)
  let items ← Reader.list item
  Reader.expect .rightParen
  return items

/-- Give the columns the values of their tokens, one after the other. -/
def assign (params : Params) :
    OrderedMap Value → List (String × Token) → Except CompileError (OrderedMap Value)
  | fields, [] => .ok fields
  | fields, (column, token) :: rest => do
    let value ← params.valueOf token
    if fields.contains column then .error (.malformedClause (.repeatedColumn column))
    else assign params (fields.insert column value) rest

def pair (params : Params) (columns : List String) (row : List Token) :
    Except CompileError (OrderedMap Value) :=
  if columns.length ≠ row.length then .error (.columnCountMismatch columns.length row.length)
  else assign params ∅ (columns.zip row)

def statement (ctx : Context) : Reader Descriptor := do
  Reader.expectKeyword "INSERT"
  let ignoreOnConflict ← Reader.eatKeyword "IGNORE"
  Reader.expectKeyword "INTO"
  let table ← Reader.name
  let columns ← inParentheses Reader.name
  unless ← Reader.eatKeyword "VALUES" do
    unless ← Reader.eatKeyword "VALUE" do
      Reader.fail (.malformedClause (.valuesExpected table))
  let row ← inParentheses Reader.value
  Reader.finish
  let fields ← Reader.ofExcept (pair ctx.params columns row)
  return { kind := .insert, table, fields, ignoreOnConflict }

end SqlBridge.Insert

namespace SqlBridge.Update

/-- Take an assignment and add it to the ones before. -/
def assignment (ctx : Context) (fields : OrderedMap Value) : Reader (OrderedMap Value) := do
  let field ← Reader.name
  if (← Reader.next) ≠ some (.symbol "=") then
    Reader.fail (.malformedClause (.assignmentExpected field))
  let value ← ctx.value
  if fields.contains field then Reader.fail (.malformedClause (.repeatedAssignment field))
  return fields.insert field value

def statement (ctx : Context) : Reader Descriptor := do
  Reader.expectKeyword "UPDATE"
  let table ← Reader.name
  Reader.expectKeyword "SET"
  let fields ← Reader.separated (assignment ctx) ∅
  let filter ← Condition.whereClause? ctx
  Reader.finish
  return { kind := .update, table, fields, filter }

end SqlBridge.Update

namespace SqlBridge.Delete

def statement (ctx : Context) : Reader Descriptor := do
  Reader.expectKeyword "DELETE"
  Reader.expectKeyword "FROM"
  let table ← Reader.name
  let filter ← Condition.whereClause? ctx
  Reader.finish
  return { kind := .delete, table, filter }

end SqlBridge.Delete

namespace SqlBridge.Procedure

def keywords : List String := ["CALL", "EXEC", "EXECUTE", "BEGIN"]

def argumentOf (params : Params) (position : Nat) (token : Token) :
    Except CompileError (String × Value) :=
  match token.literal with
  | .placeholder name => (params.bind (.placeholder name)).map (name, ·)
  | value => .ok ("param" ++ position.repr, value)

def argument (ctx : Context) (fields : OrderedMap Value) : Reader (OrderedMap Value) := do
  let token ← Reader.value
  let (name, value) ← Reader.ofExcept (argumentOf ctx.params (fields.entries.length + 1) token)
  if fields.contains name then Reader.fail (.malformedClause (.repeatedArgument name))
  return fields.insert name value

/-- Take the arguments in parentheses. A call may leave out the parentheses. -/
def arguments (ctx : Context) : Reader (OrderedMap Value) := do
  if ← Reader.eat .leftParen then
    if ← Reader.eat .rightParen then return ∅
    let fields ← Reader.separated (argument ctx) ∅
    Reader.expect .rightParen
    return fields
  else return ∅

def startKeyword : Reader Unit := do
  match ← Reader.peek with
  | none => Reader.fail (.unrecognizedStatement "")
  | some token =>
    if keywords.any fun keyword => token.isKeyword keyword then
      let _ ← Reader.next
    else Reader.fail (.unrecognizedStatement token.display)

def statement (ctx : Context) : Reader Descriptor := do
  let block ← Reader.atKeyword "BEGIN"
  startKeyword
  let name ← Reader.name
  let fields ← arguments ctx
  if block then
    let _ ← Reader.eat .semicolon
    Reader.expectKeyword "END"
    let _ ← Reader.eat .semicolon
  Reader.finish
  return { kind := .procedure, fields, procedureName := some name }

end SqlBridge.Procedure
