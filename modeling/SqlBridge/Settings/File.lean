import SqlBridge.Json.Basic
import SqlBridge.Json.Parser
import SqlBridge.Json.Printer
import SqlBridge.Settings.Basic
import SqlBridge.Text.Basic

/-!
# The settings file

Settings are kept in a JSON file. A file that is missing means the defaults, a key that is missing
means its default, and keys of other names are skipped; an array has the settings in their order.
What is read is checked, the version first, then the primary key, then the depth; what is written is
not. Beside the file its directory holds the schema that describes it. Files are given by a function
from paths to what reading them gives, so saving is a function too.
-/

namespace SqlBridge

inductive FileText where
  /-- There is no such file. -/
  | missing
  /-- There is something that cannot be read as text. -/
  | unreadable
  | text (s : String)
deriving DecidableEq, Repr

namespace Settings

def fileName : String := "configuration.json"

def currentVersion : UInt32 := 1

/-- Why settings cannot be read. -/
inductive FileError where
  | unreadableFile
  | notSettings
  | unsupportedVersion (version : UInt32)
  | emptyPrimaryKey
  | zeroDepth
deriving DecidableEq, Repr

/-- The error in words, where it is one of the settings. -/
def FileError.message? : FileError → Option String
  | .unreadableFile => none
  | .notSettings => none
  | .unsupportedVersion version =>
    some ("unsupported configuration version " ++ version.toNat.repr)
  | .emptyPrimaryKey => some "invalid configuration value for primaryKey: must not be empty"
  | .zeroDepth => some "invalid configuration value for maxPredicateDepth: must be at least 1"

def encode (s : Settings) : Json :=
  .obj [("version", .int s.version.toNat), ("primaryKey", .str s.primaryKey),
    ("maxPredicateDepth", .int s.maxPredicateDepth.toNat),
    ("caseInsensitiveLike", .bool s.caseInsensitiveLike)]

/-- The keys of a settings file. -/
def keys : List String :=
  ["version", "primaryKey", "maxPredicateDepth", "caseInsensitiveLike"]

/-- Read settings, without checking them. -/
def decode? (v : Json) : Option Settings := do
  let fields ← v.record? keys
  let standard : Settings := {}
  pure {
    version := ← Json.Fields.withDefault? fields "version" standard.version
      fun v => (v.natBelow? (2 ^ 32)).map UInt32.ofNat
    primaryKey := ← Json.Fields.withDefault? fields "primaryKey" standard.primaryKey Json.str?
    maxPredicateDepth := ← Json.Fields.withDefault? fields "maxPredicateDepth"
      standard.maxPredicateDepth Json.uint64?
    caseInsensitiveLike := ← Json.Fields.withDefault? fields "caseInsensitiveLike"
      standard.caseInsensitiveLike Json.bool?
  }

/-- Check settings that were read; the first fault counts. -/
def check (s : Settings) : Except FileError Settings :=
  if s.version ≠ currentVersion then .error (.unsupportedVersion s.version)
  else if Text.isAllBlank s.primaryKey then .error .emptyPrimaryKey
  else if s.maxPredicateDepth = 0 then .error .zeroDepth
  else .ok s

def ofFile : FileText → Except FileError Settings
  | .missing => .ok {}
  | .unreadable => .error .unreadableFile
  | .text text =>
    match (Json.parse? text).bind decode? with
    | some s => s.check
    | none => .error .notSettings

def fileText (s : Settings) : String :=
  s.encode.pretty ++ "\n"

end Settings

/-! ### Saving settings -/

/-- The files once a text is written at a path. -/
def writeFile (path text : String) (files : String → FileText) : String → FileText :=
  fun other => if other = path then .text text else files other

namespace Settings

def schemaFileName : String := "schema.json"

/-- The files once settings are saved in a directory: first the settings, then the schema. -/
def save (s : Settings) (directory : String) (files : String → FileText) : String → FileText :=
  writeFile (directory ++ "/" ++ schemaFileName) (schemaText ++ "\n")
    (writeFile (directory ++ "/" ++ fileName) s.fileText files)

end Settings

end SqlBridge
