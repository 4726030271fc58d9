import SqlBridge.Descriptor.Basic
import SqlBridge.Statement.Condition
import SqlBridge.Statement.Join
import SqlBridge.Statement.Reader

/-!
# SELECT statements

`SELECT [DISTINCT] columns FROM table [joins] [WHERE ...] [ORDER BY ...] [LIMIT ...]`. A distinct
selection becomes a store-level command on the table. A field is ordered by in ascending order
unless it says DESC. A limit is written as a count, as an offset and a count with a comma between
them, or as a count with an OFFSET.
-/

namespace SqlBridge.Ordering

/-! ### ORDER BY and LIMIT -/

def element : Reader OrderElement := do
  let field ← Reader.name
  if ← Reader.eatKeyword "DESC" then return ⟨field, .desc⟩
  let _ ← Reader.eatKeyword "ASC"
  return ⟨field, .asc⟩

def orderBy : Reader (List OrderElement) := do
  if ← Reader.eatKeyword "ORDER" then
    Reader.expectKeyword "BY"
    Reader.list element
  else return []

def limit? (ctx : Context) : Reader (Option Limit) := do
  if ← Reader.eatKeyword "LIMIT" then
    let first ← ctx.count
    if ← Reader.eat .comma then return some { offset := first, count := ← ctx.count }
    if ← Reader.eatKeyword "OFFSET" then return some { offset := ← ctx.count, count := first }
    return some { offset := 0, count := first }
  else return none

end SqlBridge.Ordering

/-! ### Selections -/

namespace SqlBridge.Select

inductive Column where
  | star
  | named (name : String) (otherName : Option String)
deriving DecidableEq, Repr

def column : Reader Column := do
  if (← Reader.peek) = some (.word "*") then
    let _ ← Reader.next
    return .star
  let name ← Reader.name
  if ← Reader.eatKeyword "AS" then return .named name (some (← Reader.name))
  return .named name none

def columns : Reader (List Column) := do
  if (← Reader.peek).all (·.isKeyword "FROM") then
    Reader.fail (.malformedClause .columnsExpected)
  Reader.list column

structure Projection where
  included : OrderedMap Bool := ∅
  aliases : OrderedMap String := ∅

def Projection.add (p : Projection) : Column → Projection
  | .star => p
  | .named name otherName =>
    { included := p.included.insert name true
      aliases := match otherName with
        | some a => p.aliases.insert a name
        | none => p.aliases }

/-- The projection of a select list. A star stands alone and selects everything; named columns are
included, and the primary key is excluded unless it is among them. -/
def projection (primaryKey : String) (columns : List Column) : Except CompileError Projection :=
  if columns.contains .star then
    if columns.length = 1 then .ok {} else .error (.malformedClause .starWithColumns)
  else
    let p := columns.foldl Projection.add {}
    .ok (if p.included.contains primaryKey then p
      else { p with included := p.included.insert primaryKey false })

def statement (ctx : Context) : Reader Descriptor := do
  Reader.expectKeyword "SELECT"
  let distinct ← Reader.eatKeyword "DISTINCT"
  let columns ← columns
  Reader.expectKeyword "FROM"
  let table ← TableRef.reader
  let joins ← Join.joins table
  let filter ← Condition.whereClause? ctx
  let orderBy ← Ordering.orderBy
  let limit ← Ordering.limit? ctx
  Reader.finish
  let p ← Reader.ofExcept (projection ctx.settings.primaryKey columns)
  return {
    kind := if distinct then .command else .select
    table := table.name
    filter, joins, orderBy, limit
    projection := p.included
    aliases := p.aliases
    distinctOn := if distinct then some table.name else none
  }

end SqlBridge.Select
