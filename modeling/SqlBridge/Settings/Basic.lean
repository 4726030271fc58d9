import SqlBridge.Json.Printer

/-!
# Compiler settings

Everything that changes how statements are compiled, and the JSON schema that describes it with the
default of every key. The settings are kept as they are given; whether they are admissible is asked
only where they are read from a file.
-/

namespace SqlBridge

structure Settings where
  /-- The version of the configuration format. -/
  version : UInt32 := 1
  /-- The field that projections exclude unless it is selected. -/
  primaryKey : String := "_id"
  /-- How deep the parentheses of a WHERE clause may nest. -/
  maxPredicateDepth : UInt64 := 32
  /-- Whether LIKE ignores case. -/
  caseInsensitiveLike : Bool := true
deriving DecidableEq, Inhabited, Repr

/-! ### The schema -/

namespace Settings

def property (description : String) (standard : Json) (rest : List (String × Json)) : Json :=
  .obj (("description", .str description) :: ("default", standard) :: rest)

def unsigned (format : String) : List (String × Json) :=
  [("type", .str "integer"), ("format", .str format), ("minimum", .float (.zero false))]

def schema : Json :=
  let standard : Settings := {}
  .obj [
    ("$schema", .str "http://json-schema.org/draft-07/schema#"),
    ("title", .str "CompilerSettings"),
    ("description", .str ("The 'CompilerSettings' type collects everything that changes how "
      ++ "statements are compiled.\n\nCompilation is a pure function of the statement, the "
      ++ "parameters and these settings, so the same settings value can be shared freely between "
      ++ "concurrent compile calls.")),
    ("type", .str "object"),
    ("properties", .obj [
      ("version", property "Which version of the configuration format are we using"
        (.int standard.version.toNat) (unsigned "uint32")),
      ("primaryKey", property
        ("The primary-key-like field that projections exclude unless it is selected "
          ++ "explicitly.")
        (.str standard.primaryKey) [("type", .str "string")]),
      ("maxPredicateDepth", property "Maximum parenthesis nesting allowed in a WHERE clause."
        (.int standard.maxPredicateDepth.toNat) (unsigned "uint")),
      ("caseInsensitiveLike", property "Whether LIKE patterns match case-insensitively."
        (.bool standard.caseInsensitiveLike) [("type", .str "boolean")])])]

def schemaText : String :=
  schema.pretty

end Settings

end SqlBridge
