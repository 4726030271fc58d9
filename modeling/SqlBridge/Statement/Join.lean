import SqlBridge.Descriptor.Basic
import SqlBridge.Statement.Reader

/-!
# Tables and joins

A table is named together with an optional alias, and answers to both names. A join becomes a lookup
of rows of the joined table. Its condition is an equality of two fields, and the one that is
qualified by the joined table is looked up; exactly one must be.
-/

namespace SqlBridge

/-! ### Tables -/

structure TableRef where
  name : String
  otherName : Option String
deriving DecidableEq, Inhabited, Repr

namespace TableRef

/-- Whether a qualifier means this table: it is the name or the alias, without regard to case. -/
def isNamed (t : TableRef) (qualifier : String) : Bool :=
  Text.sameWord t.name qualifier || t.otherName.any fun a => Text.sameWord a qualifier

def exposedName (t : TableRef) : String :=
  t.otherName.getD t.name

def reader : Reader TableRef := do
  let name ← Reader.name
  let otherName ← Reader.alias?
  return ⟨name, otherName⟩

end TableRef

/-! ### Joins -/

namespace Join

/-- The part of an operand before its last point and the part after it, if neither is empty. -/
def splitQualifier? (operand : String) : Option (String × String) :=
  let back := operand.toList.reverse
  let field := (back.takeWhile (· ≠ '.')).reverse
  match back.dropWhile (· ≠ '.') with
  | [] => none
  | _ :: qualifier =>
    if qualifier.isEmpty || field.isEmpty then none
    else some (String.ofList qualifier.reverse, String.ofList field)

/-- The field of an operand that is qualified by the table. -/
def fieldOf? (table : TableRef) (operand : String) : Option String :=
  match splitQualifier? operand with
  | some (qualifier, field) => if table.isNamed qualifier then some field else none
  | none => none

/-- The lookup for joining a table on the equality of two operands. The qualifier of the outer
table is left out of the local field. -/
def lookup (outer joined : TableRef) (left right : String) : Except CompileError Lookup :=
  let stage (localOperand foreignField : String) : Lookup :=
    { fromTable := joined.name
      localField := (fieldOf? outer localOperand).getD localOperand
      foreignField
      exposedAs := joined.exposedName }
  match fieldOf? joined left, fieldOf? joined right with
  | none, some foreign => .ok (stage left foreign)
  | some foreign, none => .ok (stage right foreign)
  | _, _ => .error (.ambiguousJoinField left right)

/-- The kinds of joins that have no lookup. -/
def unsupportedKinds : List String := ["INNER", "RIGHT", "FULL", "CROSS", "NATURAL"]

inductive Start where
  /-- `LEFT`, with `OUTER` and `JOIN` to follow. -/
  | left
  /-- `JOIN`. -/
  | join

def start? (t : Token) : Except CompileError (Option Start) :=
  if t.isKeyword "LEFT" then .ok (some .left)
  else if t.isKeyword "JOIN" then .ok (some .join)
  else match unsupportedKinds.find? fun kind => t.isKeyword kind with
    | some kind => .error (.unsupportedJoin kind)
    | none => .ok none

def joinReader (outer : TableRef) : Start → Reader Lookup
  | .left => do
    let _ ← Reader.eatKeyword "OUTER"
    Reader.expectKeyword "JOIN"
    afterJoin
  | .join => afterJoin
where
  /-- Take the joined table and the condition. -/
  afterJoin : Reader Lookup := do
    let joined ← TableRef.reader
    Reader.expectKeyword "ON"
    let inParentheses ← Reader.eat .leftParen
    let left ← Reader.name
    if (← Reader.next) ≠ some (.symbol "=") then
      Reader.fail (.malformedClause (.joinNotEquality joined.name))
    let right ← Reader.name
    if inParentheses then Reader.expect .rightParen
    Reader.ofExcept (lookup outer joined left right)

def joins (outer : TableRef) : Reader (List Lookup) :=
  Reader.loop start? (fun before s => do return before ++ [← joinReader outer s]) []

end Join

end SqlBridge
