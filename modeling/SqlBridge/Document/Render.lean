import SqlBridge.Descriptor.Basic

/-!
# Descriptors as document-store commands

A filter becomes a document whose keys are fields or connectives, a selection becomes a find
command or, with joins, an aggregation, and the other statements become the commands of their
names. Documents are maps: of two entries for one key the first place and the last value count.
-/

namespace SqlBridge.Document

/-- What a descriptor may ask for that a document store cannot do. -/
inductive Unsupported where
  | valueWithoutJson (value : Value)
  | procedureWithoutName
deriving DecidableEq, Repr

inductive Error where
  | notSupported (what : Unsupported)
  | unboundPlaceholder (name : String)
deriving DecidableEq, Repr

def Unsupported.message : Unsupported → String
  | .valueWithoutJson value => "the value " ++ value.display
  | .procedureWithoutName => "a procedure call without a name"

def Error.message : Error → String
  | .notSupported what => what.message ++ " is not supported by document stores"
  | .unboundPlaceholder name => "placeholder :" ++ name ++ " was never bound"

def value (v : Value) : Except Error Json :=
  match v with
  | .placeholder name => .error (.unboundPlaceholder name)
  | v => match v.toJson? with
    | some j => .ok j
    | none => .error (.notSupported (.valueWithoutJson v))

def operatorKey : Operator → String
  | .eq => "$eq"
  | .ne => "$ne"
  | .lt => "$lt"
  | .lte => "$lte"
  | .gt => "$gt"
  | .gte => "$gte"

def connectiveKey : Logic → String
  | .and => "$and"
  | .or => "$or"

/-- The condition on a field: equality is not spelled out. -/
def condition (operator : Operator) (v : Json) : Json :=
  if operator = .eq then v else .obj [(operatorKey operator, v)]

mutual

def filter : Predicate → Except Error Json
  | .comparison field operator v => do
    let j ← value v
    pure (.obj [(field, condition operator j)])
  | .pattern field regex caseInsensitive =>
    pure (.obj [(field, .obj (("$regex", .str regex)
      :: (if caseInsensitive then [("$options", .str "i")] else [])))])
  | .group logic children => do
    let inner ← filters children
    pure (.obj [(connectiveKey logic, .arr inner)])

def filters : List Predicate → Except Error (List Json)
  | [] => pure []
  | p :: rest => do
    let first ← filter p
    let others ← filters rest
    pure (first :: others)

end

/-- A document of entries inserted one after the other. -/
def document (entries : List (String × Json)) : Json :=
  .obj (OrderedMap.ofList entries).entries

def lookup (l : Lookup) : Json :=
  .obj [("from", .str l.fromTable), ("localField", .str l.localField),
    ("foreignField", .str l.foreignField), ("as", .str l.exposedAs)]

def sort? (d : Descriptor) : Option Json :=
  if d.orderBy.isEmpty then none
  else some (document (d.orderBy.map fun e =>
    (e.field, .int (match e.direction with | .asc => 1 | .desc => -1))))

/-- The entry of a column in the projection document. An included column with an alias is taken
under the alias from its source field. -/
def projectionEntry (d : Descriptor) (column : String × Bool) : String × Json :=
  match column.2, d.aliasOf? column.1 with
  | true, some other => (other, .str ("$" ++ column.1))
  | included, _ => (column.1, .int (if included then 1 else 0))

def projection? (d : Descriptor) : Option Json :=
  if d.projection.isEmpty then none
  else some (document (d.projection.entries.map (projectionEntry d)))

def stage (key : String) : Option Json → List Json
  | none => []
  | some body => [.obj [(key, body)]]

/-- The number of rows to skip, if it is not zero. -/
def skip? (d : Descriptor) : Option Json :=
  d.limit.bind fun l => if 0 < l.offset.toNat then some (.int l.offset.toNat) else none

def take? (d : Descriptor) : Option Json :=
  d.limit.map fun l => .int l.count.toNat

def filterDocument? (d : Descriptor) : Except Error (Option Json) :=
  match d.filter with
  | none => .ok none
  | some p => (filter p).map some

/-- The aggregation pipeline of a selection: filter, lookups, sort, skip, limit and projection,
without the stages that have nothing to do. -/
def pipeline (d : Descriptor) : Except Error (List Json) := do
  let query ← filterDocument? d
  pure (stage "$match" query ++ d.joins.flatMap (fun l => stage "$lookup" (some (lookup l)))
    ++ stage "$sort" (sort? d) ++ stage "$skip" (skip? d) ++ stage "$limit" (take? d)
    ++ stage "$project" (projection? d))

def fieldDocument (d : Descriptor) : Except Error Json :=
  (d.fields.entries.mapM fun e => (value e.2).map (e.1, ·)).map document

def aggregate (table : String) (stages : List Json) : Json :=
  .obj [("aggregate", .str table), ("pipeline", .arr stages), ("cursor", .obj [])]

def field (key : String) : Option Json → List (String × Json)
  | none => []
  | some v => [(key, v)]

def find (d : Descriptor) (query : Option Json) : Json :=
  .obj ([("find", .str d.table)] ++ field "filter" query ++ field "projection" (projection? d)
    ++ field "sort" (sort? d) ++ field "skip" (skip? d) ++ field "limit" (take? d))

/-- A column name with its points replaced, as the key of a group. -/
def groupKey (column : String) : String :=
  String.ofList (column.toList.map fun c => if c = '.' then '_' else c)

/-- What rows are grouped on to be distinct: the included columns, or whole documents. -/
def groupBody (columns : List String) : Json :=
  if columns.isEmpty then .str "$$ROOT"
  else document (columns.map fun c => (groupKey c, .str ("$" ++ c)))

/-- The command of a distinct selection. One column has a command of its own; several columns or
whole documents are grouped on. -/
def distinct (d : Descriptor) (query : Option Json) : Json :=
  let table := d.distinctOn.getD d.table
  match d.included with
  | [key] =>
    .obj [("distinct", .str table), ("key", .str key), ("query", query.getD (.obj []))]
  | columns =>
    aggregate table (stage "$match" query
      ++ [.obj [("$group", .obj [("_id", groupBody columns)])],
        .obj [("$replaceRoot", .obj [("newRoot", .str "$_id")])]]
      ++ stage "$sort" (sort? d) ++ stage "$skip" (skip? d) ++ stage "$limit" (take? d))

def command (d : Descriptor) : Except Error Json := do
  let query ← filterDocument? d
  match d.kind with
  | .select =>
    if d.joins.isEmpty then pure (find d query)
    else do
      let stages ← pipeline d
      pure (aggregate d.table stages)
  | .command => pure (distinct d query)
  | .insert => do
    let fields ← fieldDocument d
    pure (.obj [("insert", .str d.table), ("documents", .arr [fields]),
      ("ordered", .bool (!d.ignoreOnConflict))])
  | .update => do
    let fields ← fieldDocument d
    pure (.obj [("update", .str d.table),
      ("updates", .arr [.obj [("q", query.getD (.obj [])), ("u", .obj [("$set", fields)]),
        ("multi", .bool true)]])])
  | .delete =>
    pure (.obj [("delete", .str d.table),
      ("deletes", .arr [.obj [("q", query.getD (.obj [])), ("limit", .int 0)]])])
  | .procedure =>
    match d.procedureName with
    | none => .error (.notSupported .procedureWithoutName)
    | some name => do
      let fields ← fieldDocument d
      pure (.obj [("call", .str name), ("args", fields)])

end SqlBridge.Document
