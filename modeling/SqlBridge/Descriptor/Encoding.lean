import SqlBridge.Descriptor.Basic
import SqlBridge.Predicate.Encoding

/-!
# Descriptors in JSON

A descriptor is written as a record that leaves out every part that is absent or empty, except that
it always says whether conflicts are ignored. Reading requires only the kind. It takes the parts of
an object in any order and skips unknown ones; an array has them in the order of the record.
-/

namespace SqlBridge

open Json

/-- A field that is written only if there is a value. -/
def Json.optionalField {α : Type} (name : String) (encode : α → Json) :
    Option α → List (String × Json)
  | none => []
  | some x => [(name, encode x)]

def Json.listField {α : Type} (name : String) (encode : α → Json) :
    List α → List (String × Json)
  | [] => []
  | xs => [(name, .arr (xs.map encode))]

def Json.mapField {α : Type} (name : String) (encode : α → Json) (m : OrderedMap α) :
    List (String × Json) :=
  if m.isEmpty then [] else [(name, .obj (m.mapValues encode).entries)]

namespace Lookup

def encode (l : Lookup) : Json :=
  .obj [("fromTable", .str l.fromTable), ("localField", .str l.localField),
    ("foreignField", .str l.foreignField), ("as", .str l.exposedAs)]

def decode? (v : Json) : Option Lookup := do
  let fields ← v.record? ["fromTable", "localField", "foreignField", "as"]
  let fromTable ← Fields.required? fields "fromTable" str?
  let localField ← Fields.required? fields "localField" str?
  let foreignField ← Fields.required? fields "foreignField" str?
  let exposedAs ← Fields.required? fields "as" str?
  pure ⟨fromTable, localField, foreignField, exposedAs⟩

end Lookup

namespace OrderElement

def encode (e : OrderElement) : Json :=
  .obj [("field", .str e.field), ("direction", .str e.direction.name)]

def decode? (v : Json) : Option OrderElement := do
  let fields ← v.record? ["field", "direction"]
  let field ← Fields.required? fields "field" str?
  let direction ← Fields.required? fields "direction" fun v => v.name?.bind Direction.ofName?
  pure ⟨field, direction⟩

end OrderElement

namespace Limit

def encode (l : Limit) : Json :=
  .obj [("offset", .int l.offset.toNat), ("count", .int l.count.toNat)]

def decode? (v : Json) : Option Limit := do
  let fields ← v.record? ["offset", "count"]
  let offset ← Fields.required? fields "offset" uint64?
  let count ← Fields.required? fields "count" uint64?
  pure ⟨offset, count⟩

end Limit

namespace Descriptor

def encode (d : Descriptor) : Json :=
  .obj ([("kind", .str d.kind.name)]
    ++ (if d.table.isEmpty then [] else [("table", .str d.table)])
    ++ optionalField "filter" Predicate.encode d.filter
    ++ mapField "fields" Value.encode d.fields
    ++ mapField "projection" .bool d.projection
    ++ mapField "aliases" .str d.aliases
    ++ listField "joins" Lookup.encode d.joins
    ++ listField "orderBy" OrderElement.encode d.orderBy
    ++ optionalField "limit" Limit.encode d.limit
    ++ [("ignoreOnConflict", .bool d.ignoreOnConflict)]
    ++ optionalField "procedureName" .str d.procedureName
    ++ optionalField "distinctOn" .str d.distinctOn)

/-- The names of the parts in their order. -/
def fieldNames : List String :=
  ["kind", "table", "filter", "fields", "projection", "aliases", "joins", "orderBy", "limit",
    "ignoreOnConflict", "procedureName", "distinctOn"]

/-- Read a descriptor, the values in it being read by `readValue`. -/
def decodeWith? (readValue : Json → Option Value) (v : Json) : Option Descriptor := do
  let fields ← v.record? fieldNames
  pure {
    kind := ← Fields.required? fields "kind" fun v => v.name?.bind StatementKind.ofName?
    table := ← Fields.withDefault? fields "table" "" str?
    filter := ← Fields.withDefault? fields "filter" none
      (nullable? (Predicate.decodeWithin? 1 readValue))
    fields := ← Fields.withDefault? fields "fields" ∅ (map? readValue)
    projection := ← Fields.withDefault? fields "projection" ∅ (map? bool?)
    aliases := ← Fields.withDefault? fields "aliases" ∅ (map? str?)
    joins := ← Fields.withDefault? fields "joins" [] (list? Lookup.decode?)
    orderBy := ← Fields.withDefault? fields "orderBy" [] (list? OrderElement.decode?)
    limit := ← Fields.withDefault? fields "limit" none (nullable? Limit.decode?)
    ignoreOnConflict := ← Fields.withDefault? fields "ignoreOnConflict" false bool?
    procedureName := ← Fields.withDefault? fields "procedureName" none (nullable? str?)
    distinctOn := ← Fields.withDefault? fields "distinctOn" none (nullable? str?)
  }

def decode? (v : Json) : Option Descriptor :=
  decodeWith? Value.ofJson? v

end Descriptor

end SqlBridge
