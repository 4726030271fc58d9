import SqlBridge.Proofs.Json.Indentation
import SqlBridge.Settings.File

/-!
# Settings on disk

Settings that are saved are read back, or refused for the first fault they have, since saving does
not check them and reading does. A file may also leave settings out or say more than settings: what
is missing is the default, what is no setting is skipped, and what comes out is checked in the same
way.
-/

namespace SqlBridge

theorem writeFile_same (path text : String) (files : String → FileText) :
    writeFile path text files path = .text text :=
  if_pos rfl

theorem writeFile_other {path other : String} (apart : other ≠ path) (text : String)
    (files : String → FileText) : writeFile path text files other = files other :=
  if_neg apart

namespace Settings

open Json

variable {s : Settings}

/-! ### Faults -/

/-- Settings whose version is supported, whose primary key is not blank, and which allow some
nesting. -/
structure Admissible (s : Settings) : Prop where
  supported : s.version = 1
  named : ∃ c ∈ s.primaryKey.toList, Text.isBlank c = false
  nests : 1 ≤ s.maxPredicateDepth

/-- The fault that counts: the version, or else the primary key, or else the depth. -/
inductive FirstFault (s : Settings) : FileError → Prop where
  | version (other : s.version ≠ 1) : FirstFault s (.unsupportedVersion s.version)
  | primaryKey (supported : s.version = 1)
      (blank : ∀ c ∈ s.primaryKey.toList, Text.isBlank c = true) : FirstFault s .emptyPrimaryKey
  | depth (supported : s.version = 1) (named : ∃ c ∈ s.primaryKey.toList, Text.isBlank c = false)
      (zero : s.maxPredicateDepth = 0) : FirstFault s .zeroDepth

/-- The result is the settings if they are admissible, and otherwise their first fault. -/
structure Answers (s : Settings) (result : Except FileError Settings) : Prop where
  ok_iff : ∀ t, result = .ok t ↔ t = s ∧ s.Admissible
  error_iff : ∀ e, result = .error e ↔ s.FirstFault e

theorem not_isAllBlank {key : String} (named : ∃ c ∈ key.toList, Text.isBlank c = false) :
    ¬Text.isAllBlank key = true := by
  obtain ⟨c, listed, visible⟩ := named
  intro blank
  rw [List.all_eq_true.mp blank c listed] at visible
  cases visible

theorem not_unsupported (supported : s.version = 1) : ¬s.version ≠ currentVersion :=
  not_not.mpr supported

theorem isAllBlank_iff {key : String} :
    Text.isAllBlank key = true ↔ ∀ c ∈ key.toList, Text.isBlank c = true :=
  List.all_eq_true

theorem check_of_admissible (h : s.Admissible) : s.check = .ok s := by
  have positive : s.maxPredicateDepth ≠ 0 := by
    intro zero
    have nests := h.nests
    rw [zero] at nests
    exact absurd nests (by decide)
  rw [check, if_neg (not_unsupported h.supported), if_neg (not_isAllBlank h.named), if_neg positive]

theorem check_of_firstFault {e : FileError} (h : s.FirstFault e) : s.check = .error e := by
  cases h with
  | version other => exact if_pos other
  | primaryKey supported blank =>
    rw [check, if_neg (not_unsupported supported), if_pos (isAllBlank_iff.mpr blank)]
  | depth supported named zero =>
    rw [check, if_neg (not_unsupported supported), if_neg (not_isAllBlank named), if_pos zero]

theorem admissible_or_firstFault (s : Settings) : s.Admissible ∨ ∃ e, s.FirstFault e := by
  by_cases supported : s.version = 1
  · by_cases blank : ∀ c ∈ s.primaryKey.toList, Text.isBlank c = true
    · exact .inr ⟨_, .primaryKey supported blank⟩
    · have named : ∃ c ∈ s.primaryKey.toList, Text.isBlank c = false := by simpa using blank
      by_cases zero : s.maxPredicateDepth = 0
      · exact .inr ⟨_, .depth supported named zero⟩
      · refine .inl ⟨supported, named, ?_⟩
        have positive : s.maxPredicateDepth.toNat ≠ 0 :=
          fun none => zero (UInt64.toNat_inj.mp none)
        rw [UInt64.le_iff_toNat_le, UInt64.toNat_one]
        omega
  · exact .inr ⟨_, .version supported⟩

/-- Checking settings answers for them. -/
theorem answers_check (s : Settings) : s.Answers s.check := by
  constructor
  · intro t
    constructor
    · intro passed
      rcases s.admissible_or_firstFault with fine | ⟨e, fault⟩
      · rw [check_of_admissible fine] at passed
        exact ⟨(Except.ok.inj passed).symm, fine⟩
      · rw [check_of_firstFault fault] at passed
        cases passed
    · rintro ⟨rfl, fine⟩
      exact check_of_admissible fine
  · intro e
    constructor
    · intro failed
      rcases s.admissible_or_firstFault with fine | ⟨e', fault⟩
      · rw [check_of_admissible fine] at failed
        cases failed
      · rw [check_of_firstFault fault] at failed
        exact Except.error.inj failed ▸ fault
    · exact check_of_firstFault

/-! ### Settings that are left out -/

/-- The settings that a file gives. -/
structure Given where
  version : Option UInt32
  primaryKey : Option String
  maxPredicateDepth : Option UInt64
  caseInsensitiveLike : Option Bool

namespace Given

def settings (g : Given) : Settings :=
  let standard : Settings := {}
  { version := g.version.getD standard.version
    primaryKey := g.primaryKey.getD standard.primaryKey
    maxPredicateDepth := g.maxPredicateDepth.getD standard.maxPredicateDepth
    caseInsensitiveLike := g.caseInsensitiveLike.getD standard.caseInsensitiveLike }

def parts (g : Given) : List (String × Option Json) :=
  [("version", g.version.map fun n => .int n.toNat),
    ("primaryKey", g.primaryKey.map .str),
    ("maxPredicateDepth", g.maxPredicateDepth.map fun n => .int n.toNat),
    ("caseInsensitiveLike", g.caseInsensitiveLike.map .bool)]

/-- The fields of an object give these settings, in any order and among fields of other names. -/
def In (g : Given) (fields : Fields) : Prop :=
  ∃ others : Fields, fields.Perm (present g.parts ++ others) ∧ ∀ e ∈ others, e.1 ∉ keys

end Given

theorem natBelow?_version (n : UInt32) :
    ((Json.int n.toNat).natBelow? (2 ^ 32)).map UInt32.ofNat = some n := by
  rw [natBelow?_of_lt n.toNat_lt, Option.map_some, UInt32.ofNat_toNat]

/-- A part is read as it was written, or as the default if it is missing. -/
theorem elim_part {α : Type} {encode : α → Json} {read : Json → Option α} {default : α}
    (law : ∀ x, read (encode x) = some x) (part : Option α) :
    (part.map encode).elim (some default) read = some (part.getD default) := by
  cases part with
  | none => rfl
  | some x => exact law x

/-- Each key finds its part, whatever else the object holds. -/
theorem decode?_of_in {g : Given} {fields : Fields} (h : g.In fields) :
    decode? (.obj fields) = some g.settings := by
  obtain ⟨others, listed, apart⟩ := h
  have distinct : (g.parts.map Prod.fst).Nodup := by simp [Given.parts]
  have found {β : Type} (name : String) {part : Option β} {encode : β → Json}
      (there : partAt g.parts name = part.map encode) (known : name ∈ keys) {default : β}
      {read : Json → Option β} (law : ∀ x, read (encode x) = some x) :
      Fields.withDefault? fields name default read = some (part.getD default) := by
    rw [withDefault?_of_perm listed distinct fun e other same => apart e other (same ▸ known),
      there, elim_part law]
  simp only [decode?, record?, Option.bind_eq_bind, Option.bind_some]
  rw [found "version" rfl (by decide), found "primaryKey" rfl (by decide) str?_str,
    found "maxPredicateDepth" rfl (by decide) uint64?_toNat,
    found "caseInsensitiveLike" rfl (by decide) bool?_bool]
  · rfl
  · exact natBelow?_version

/-! ### Files -/

/-- Every setting is written. -/
theorem given_encode (s : Settings) : ∃ g : Given, g.settings = s ∧
    s.encode = .obj (present g.parts) :=
  ⟨⟨some s.version, some s.primaryKey, some s.maxPredicateDepth, some s.caseInsensitiveLike⟩, rfl,
    rfl⟩

theorem reread?_encode (s : Settings) {float? : Numeral → Option Binary64} :
    reread? float? s.encode = some s.encode := by
  have version : scalar? float? (s.version.toNat : Int).repr.toList =
      some (.int s.version.toNat) := by
    have bounded := s.version.toNat_lt
    exact scalar?_int (by omega) (by omega)
  have depth : scalar? float? (s.maxPredicateDepth.toNat : Int).repr.toList =
      some (.int s.maxPredicateDepth.toNat) := by
    have bounded := s.maxPredicateDepth.toNat_lt
    exact scalar?_int (by omega) (by omega)
  simp only [encode, reread?, rereadFields?, version, depth]
  rfl

theorem ofFile_of_decode? {text : String} {v : Json} (read : Json.parse? text = some v)
    (h : decode? v = some s) : ofFile (.text text) = s.check := by
  rw [ofFile, read, Option.bind_some, h]

/-- The text of settings is read as these settings. -/
theorem ofFile_fileText (s : Settings) : ofFile (.text s.fileText) = s.check := by
  obtain ⟨g, same, written⟩ := given_encode s
  have read : Json.parse? s.fileText = some s.encode := by
    rw [parse?, fileText, parseWith?_pretty s.encode (by simp [isSpace]), reread?_encode]
  have alone : g.In (present g.parts) := ⟨[], by simp⟩
  refine ofFile_of_decode? read ?_
  rw [written, decode?_of_in alone, same]

theorem schemaFile_ne (directory : String) :
    directory ++ "/" ++ fileName ≠ directory ++ "/" ++ schemaFileName := by
  intro same
  have chars : (directory ++ "/").toList ++ fileName.toList =
      (directory ++ "/").toList ++ schemaFileName.toList := by
    rw [← String.toList_append, ← String.toList_append, same]
  exact absurd (List.append_cancel_left chars) (by decide)

/-- The schema beside the settings leaves them as they were written. -/
theorem save_fileName (s : Settings) (directory : String) (files : String → FileText) :
    s.save directory files (directory ++ "/" ++ fileName) = .text s.fileText := by
  rw [save, writeFile_other (schemaFile_ne directory), writeFile_same]

/-- Whatever the settings and the directory are, reading what was saved gives the settings back if
they are admissible, and otherwise their first fault. The same holds of a file with any JSON object
that gives some of the settings: the others have their defaults, and fields of other names do not
count. -/
theorem ofFile_answers :
    (∀ (s : Settings) (directory : String) (files : String → FileText),
      s.Answers (ofFile (s.save directory files (directory ++ "/" ++ fileName)))) ∧
    ∀ (g : Given) (text : String) (fields : Fields), Json.parse? text = some (.obj fields) →
      g.In fields → g.settings.Answers (ofFile (.text text)) := by
  constructor
  · intro s directory files
    rw [save_fileName, ofFile_fileText]
    exact s.answers_check
  · intro g text fields read given
    rw [ofFile_of_decode? read (decode?_of_in given)]
    exact g.settings.answers_check

/-- Of a blank key and no depth the key counts, in whatever order they stand. -/
theorem ofFile_answers_blank_key :
    let text := (obj [("maxPredicateDepth", .int 0), ("a", .arr [.null]),
      ("primaryKey", .str "\u00a0")]).compact
    let g : Given := ⟨none, some "\u00a0", some 0, none⟩
    ∃ fields, Json.parse? text = some (.obj fields) ∧ g.In fields ∧
      ofFile (.text text) = .error .emptyPrimaryKey := by
  intro text g
  let depth : Fields := [("maxPredicateDepth", .int 0)]
  let other : Fields := [("a", .arr [.null])]
  let key : Fields := [("primaryKey", .str "\u00a0")]
  have read : Json.parse? text = some (.obj (depth ++ other ++ key)) := by
    rw [parse?, parseWith?_compact]
    rfl
  have given : g.In (depth ++ other ++ key) :=
    ⟨other, List.perm_append_comm, by simp [other, keys]⟩
  have blank : ∀ c ∈ g.settings.primaryKey.toList, Text.isBlank c = true :=
    isAllBlank_iff.mp (by decide)
  refine ⟨_, read, given, ?_⟩
  exact ((ofFile_answers.2 g text _ read given).error_iff _).mpr (.primaryKey rfl blank)

end Settings

end SqlBridge
