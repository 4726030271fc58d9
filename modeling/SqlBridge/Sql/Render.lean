import SqlBridge.Descriptor.Basic
import SqlBridge.Text.Quoted
import SqlBridge.Value

/-!
# Descriptors as SQL

SQL text is put together from fixed text, identifiers and parameters. An identifier is always in
double quotes. The parameters are numbered in the order in which they stand, from one, so the `i`-th
of them is `$i` in the text. Every condition and every group is in parentheses, so no precedence is
needed. Null is written out and every other value becomes a parameter. A command is written like a
selection.

SQL text can also be put together part by part: each part is written at the end of what stands
already, and a count says which number the last parameter has. Main statement: the finished text and
its values are those of the query, and the count is their number.
-/

namespace SqlBridge.Sql

/-! ### Parts -/

inductive Part where
  /-- Text that is written as it is. -/
  | fixed (text : String)
  /-- A name, which is quoted. -/
  | identifier (name : String)
  /-- A parameter with its value. -/
  | param (value : Value)
deriving DecidableEq, Inhabited, Repr

/-- The segments of a name between its points. There is at least one. -/
def segments (name : List Char) : List (List Char) :=
  match name with
  | [] => [[]]
  | c :: rest =>
    if c = '.' then [] :: segments rest
    else match segments rest with
      | [] => [[c]]
      | first :: others => (c :: first) :: others

/-- Put `separator` between the groups of parts. -/
def separatedBy (separator : String) : List (List Part) → List Part
  | [] => []
  | [parts] => parts
  | parts :: rest => parts ++ .fixed separator :: separatedBy separator rest

/-- A name that may be qualified: its segments are identifiers with points between them. -/
def qualified (name : String) : List Part :=
  separatedBy "." ((segments name.toList).map fun s => [.identifier (String.ofList s)])

/-- The text of parts of which the first parameter has the number `next`. -/
def textFrom (next : Nat) : List Part → String
  | [] => ""
  | .fixed text :: rest => text ++ textFrom next rest
  | .identifier name :: rest => Text.quoted '"' name ++ textFrom next rest
  | .param _ :: rest => "$" ++ next.repr ++ textFrom (next + 1) rest

def paramsOf : List Part → List Value
  | [] => []
  | .param value :: rest => value :: paramsOf rest
  | _ :: rest => paramsOf rest

/-- SQL text with the values of its parameters, the first of which is `$1`. -/
structure Query where
  text : String
  params : List Value
deriving DecidableEq, Repr

def Query.ofParts (parts : List Part) : Query :=
  { text := textFrom 1 parts, params := paramsOf parts }

/-! ### Descriptors -/

/-- What a descriptor may ask for that SQL text cannot say. -/
inductive Unsupported where
  | insertWithoutColumns
  | updateWithoutAssignments
  | procedureWithoutName
  | orderedNull (field : String) (operator : Operator)
deriving DecidableEq, Repr

inductive Error where
  | notSupported (what : Unsupported)
  | unboundPlaceholder (name : String)
deriving DecidableEq, Repr

def Unsupported.message : Unsupported → String
  | .insertWithoutColumns => "an INSERT without columns"
  | .updateWithoutAssignments => "an UPDATE without assignments"
  | .procedureWithoutName => "a procedure call without a name"
  | .orderedNull field operator => "comparing " ++ field ++ " " ++ operator.symbol ++ " NULL"

def Error.message : Error → String
  | .notSupported what => what.message ++ " is not supported in SQL"
  | .unboundPlaceholder name => "placeholder :" ++ name ++ " was never bound"

/-- A value: null as it is, and anything else as a parameter. -/
def value : Value → Except Error (List Part)
  | .null => .ok [.fixed "NULL"]
  | .placeholder name => .error (.unboundPlaceholder name)
  | v => .ok [.param v]

/-- What follows the field in a comparison. Only equality has a meaning for null. -/
def comparedWith (field : String) (operator : Operator) (v : Value) : Except Error (List Part) :=
  if v.isNull then
    match operator with
    | .eq => .ok [.fixed " IS NULL"]
    | .ne => .ok [.fixed " IS NOT NULL"]
    | _ => .error (.notSupported (.orderedNull field operator))
  else (value v).map (.fixed (" " ++ operator.symbol ++ " ") :: ·)

def connective : Logic → String
  | .and => " AND "
  | .or => " OR "

mutual

def predicate : Predicate → Except Error (List Part)
  | .comparison field operator v => do
    let rest ← comparedWith field operator v
    pure (.fixed "(" :: qualified field ++ rest ++ [.fixed ")"])
  | .pattern field regex caseInsensitive =>
    pure (.fixed "(" :: qualified field
      ++ [.fixed (if caseInsensitive then " ~* " else " ~ "), .param (.str regex), .fixed ")"])
  | .group logic children => do
    let inner ← predicates children
    pure (.fixed "(" :: separatedBy (connective logic) inner ++ [.fixed ")"])

def predicates : List Predicate → Except Error (List (List Part))
  | [] => pure []
  | p :: rest => do
    let first ← predicate p
    let others ← predicates rest
    pure (first :: others)

end

def whereClause : Option Predicate → Except Error (List Part)
  | none => .ok []
  | some p => (predicate p).map (.fixed " WHERE " :: ·)

def selectItem (d : Descriptor) (column : String) : List Part :=
  qualified column ++ match d.aliasOf? column with
    | some other => [.fixed " AS ", .identifier other]
    | none => []

/-- The select list: the included columns, or a star if there is none. -/
def selectList (d : Descriptor) : List Part :=
  if d.included.isEmpty then [.fixed "*"] else separatedBy ", " (d.included.map (selectItem d))

/-- A join. An unqualified local field belongs to the table of the statement. -/
def join (table : String) (l : Lookup) : List Part :=
  [.fixed " LEFT OUTER JOIN ", .identifier l.fromTable]
    ++ (if l.exposedAs = l.fromTable then [] else [.fixed " AS ", .identifier l.exposedAs])
    ++ [.fixed " ON "]
    ++ (if l.localField.toList.contains '.' then [] else [.identifier table, .fixed "."])
    ++ qualified l.localField ++ [.fixed " = ", .identifier l.exposedAs, .fixed "."]
    ++ qualified l.foreignField

def orderItem (e : OrderElement) : List Part :=
  qualified e.field ++ [.fixed (match e.direction with | .asc => " ASC" | .desc => " DESC")]

def orderClause (elements : List OrderElement) : List Part :=
  if elements.isEmpty then []
  else .fixed " ORDER BY " :: separatedBy ", " (elements.map orderItem)

/-- A LIMIT clause. An offset of zero is left out. -/
def limitClause : Option Limit → List Part
  | none => []
  | some l =>
    [.fixed " LIMIT ", .fixed l.count.toNat.repr]
      ++ (if 0 < l.offset.toNat then [.fixed " OFFSET ", .fixed l.offset.toNat.repr] else [])

def select (d : Descriptor) : Except Error (List Part) := do
  let filter ← whereClause d.filter
  pure ([.fixed "SELECT "] ++ (if d.distinctOn.isSome then [.fixed "DISTINCT "] else [])
    ++ selectList d ++ [.fixed " FROM ", .identifier d.table]
    ++ d.joins.flatMap (join d.table) ++ filter ++ orderClause d.orderBy ++ limitClause d.limit)

def insert (d : Descriptor) : Except Error (List Part) :=
  if d.fields.isEmpty then .error (.notSupported .insertWithoutColumns)
  else do
    let values ← d.fields.values.mapM value
    pure ([.fixed "INSERT INTO ", .identifier d.table, .fixed " ("]
      ++ separatedBy ", " (d.fields.keys.map fun column => [.identifier column])
      ++ [.fixed ") VALUES ("] ++ separatedBy ", " values ++ [.fixed ")"]
      ++ (if d.ignoreOnConflict then [.fixed " ON CONFLICT DO NOTHING"] else []))

def assignment (e : String × Value) : Except Error (List Part) :=
  (value e.2).map fun v => .identifier e.1 :: .fixed " = " :: v

def update (d : Descriptor) : Except Error (List Part) :=
  if d.fields.isEmpty then .error (.notSupported .updateWithoutAssignments)
  else do
    let assignments ← d.fields.entries.mapM assignment
    let filter ← whereClause d.filter
    pure ([.fixed "UPDATE ", .identifier d.table, .fixed " SET "]
      ++ separatedBy ", " assignments ++ filter)

def delete (d : Descriptor) : Except Error (List Part) := do
  let filter ← whereClause d.filter
  pure ([.fixed "DELETE FROM ", .identifier d.table] ++ filter)

def procedure (d : Descriptor) : Except Error (List Part) :=
  match d.procedureName with
  | none => .error (.notSupported .procedureWithoutName)
  | some name => do
    let values ← d.fields.values.mapM value
    pure (.fixed "CALL " :: qualified name ++ [.fixed "("] ++ separatedBy ", " values
      ++ [.fixed ")"])

def parts (d : Descriptor) : Except Error (List Part) :=
  match d.kind with
  | .select | .command => select d
  | .insert => insert d
  | .update => update d
  | .delete => delete d
  | .procedure => procedure d

def render (d : Descriptor) : Except Error Query :=
  (parts d).map Query.ofParts

/-! ### SQL text under construction -/

/-- The text of a part; a parameter in it has the number `n`. -/
def Part.text (n : Nat) : Part → String
  | .fixed text => text
  | .identifier name => Text.quoted '"' name
  | .param _ => "$" ++ n.repr

def Part.values : Part → List Value
  | .param value => [value]
  | _ => []

/-- Text that is written up to some part, with its values and the number of the last parameter. -/
structure Draft where
  text : String := ""
  params : List Value := []
  count : Nat := 0
deriving DecidableEq, Repr

namespace Draft

def add (s : Draft) (p : Part) : Draft :=
  { text := s.text ++ p.text (s.count + 1)
    params := s.params ++ p.values
    count := s.count + p.values.length }

def write (ps : List Part) : Draft :=
  ps.foldl add {}

end Draft

/-- The draft of a descriptor when all of its parts are written. -/
def draft (d : Descriptor) : Except Error Draft :=
  (parts d).map Draft.write

theorem textFrom_cons (n : Nat) (p : Part) (ps : List Part) :
    textFrom n (p :: ps) = p.text n ++ textFrom (n + p.values.length) ps := by
  cases p <;> rfl

theorem paramsOf_cons (p : Part) (ps : List Part) :
    paramsOf (p :: ps) = p.values ++ paramsOf ps := by
  cases p <;> rfl

/-- Writing parts adds their text and their values. -/
theorem Draft.foldl_add (s : Draft) (ps : List Part) :
    ps.foldl add s = ⟨s.text ++ textFrom (s.count + 1) ps, s.params ++ paramsOf ps,
      s.count + (paramsOf ps).length⟩ := by
  induction ps generalizing s with
  | nil => simp [textFrom, paramsOf]
  | cons p ps ih =>
    have next : s.count + p.values.length + 1 = s.count + 1 + p.values.length := by omega
    rw [List.foldl_cons, ih, textFrom_cons, paramsOf_cons, add, next]
    simp [String.append_assoc, Nat.add_assoc]

theorem Draft.write_eq (ps : List Part) :
    write ps = ⟨(Query.ofParts ps).text, (Query.ofParts ps).params,
      (Query.ofParts ps).params.length⟩ := by
  rw [write, foldl_add]
  simp [Query.ofParts]

/-- A descriptor has a draft when it has a query: the same text and values, all of them counted. -/
theorem draft_eq (d : Descriptor) :
    draft d = (render d).map fun q => ⟨q.text, q.params, q.params.length⟩ := by
  rw [draft, render]
  cases parts d with
  | error e => rfl
  | ok ps => exact congrArg Except.ok (Draft.write_eq ps)

end SqlBridge.Sql
