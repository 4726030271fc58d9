import SqlBridge.Predicate.Basic

/-!
# Query descriptors

The neutral form of a statement: plain data that says what is asked for, from which both the SQL
text and the document-store command are written. Which parts have a meaning depends on the kind.
-/

namespace SqlBridge

/-- The kinds of statements. A command is a store-level command, which `SELECT DISTINCT` becomes. -/
inductive StatementKind where
  | select
  | insert
  | update
  | delete
  | procedure
  | command
deriving DecidableEq, Inhabited, Repr

namespace StatementKind

def all : List StatementKind := [.select, .insert, .update, .delete, .procedure, .command]

def name : StatementKind → String
  | .select => "select"
  | .insert => "insert"
  | .update => "update"
  | .delete => "delete"
  | .procedure => "procedure"
  | .command => "command"

def ofName? (s : String) : Option StatementKind :=
  all.find? fun k => k.name = s

theorem ofName?_name (k : StatementKind) : ofName? k.name = some k := by
  cases k <;> decide

end StatementKind

/-- A joined table: its rows are found by one of their fields and exposed under a name. -/
structure Lookup where
  fromTable : String
  localField : String
  foreignField : String
  /-- The name the joined rows are exposed under. -/
  exposedAs : String
deriving DecidableEq, Inhabited, Repr

inductive Direction where
  | asc
  | desc
deriving DecidableEq, Inhabited, Repr

namespace Direction

def name : Direction → String
  | .asc => "asc"
  | .desc => "desc"

def ofName? (s : String) : Option Direction :=
  [asc, desc].find? fun d => d.name = s

theorem ofName?_name (d : Direction) : ofName? d.name = some d := by
  cases d <;> decide

end Direction

structure OrderElement where
  field : String
  direction : Direction
deriving DecidableEq, Inhabited, Repr

/-- How many rows to leave out and how many to take. -/
structure Limit where
  offset : UInt64
  count : UInt64
deriving DecidableEq, Inhabited, Repr

structure Descriptor where
  kind : StatementKind
  table : String := ""
  filter : Option Predicate := none
  /-- Columns with their new values, or the arguments of a procedure. -/
  fields : OrderedMap Value := ∅
  /-- Fields to include or to exclude. Without an entry all fields are meant. -/
  projection : OrderedMap Bool := ∅
  /-- From each alias to the column it renames. -/
  aliases : OrderedMap String := ∅
  joins : List Lookup := []
  orderBy : List OrderElement := []
  limit : Option Limit := none
  ignoreOnConflict : Bool := false
  procedureName : Option String := none
  distinctOn : Option String := none
deriving DecidableEq

namespace Descriptor

def included (d : Descriptor) : List String :=
  (d.projection.entries.filter Prod.snd).map Prod.fst

/-- The first alias of a column. -/
def aliasOf? (d : Descriptor) (column : String) : Option String :=
  (d.aliases.entries.find? fun e => e.2 = column).map Prod.fst

end Descriptor

end SqlBridge
