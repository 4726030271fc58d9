import SqlBridge.CommandLine.Options
import SqlBridge.Descriptor.Encoding
import SqlBridge.Document.Render
import SqlBridge.OrderedMap
import SqlBridge.Settings.Basic
import SqlBridge.Settings.File
import SqlBridge.Sql.Render
import SqlBridge.Statement.Compile
import SqlBridge.Value

/-!
# Running the command line

A run reads the settings, then the parameters, compiles the statement and writes it in the format
asked for. Files are given by a function from paths to their text, and how SQL is laid out is given
by a function too, so a run is a function. The files may be those of a directory that is given as
data: a path in it is looked up part by part, and an empty part and a single point mean the
directory that was reached.
-/

namespace SqlBridge.CommandLine

inductive RunError where
  | configuration (directory : String) (error : Settings.FileError)
  | paramsNotJson
  | paramsFileNotJson (path : String)
  | paramsFileUnreadable (path : String)
  | compile (error : CompileError)
  | sql (error : Sql.Error)
  | document (error : Document.Error)
deriving DecidableEq, Repr

/-- What was being done with the files when a run failed. -/
def RunError.context? : RunError → Option String
  | .configuration directory _ => some ("reading configuration from " ++ directory)
  | .paramsNotJson => some "parsing --params"
  | .paramsFileNotJson path => some ("parsing " ++ path)
  | .paramsFileUnreadable path => some ("reading " ++ path)
  | _ => none

def settingsOf (files : String → FileText) (o : Options) : Except RunError Settings :=
  match o.configuration with
  | none => .ok {}
  | some directory =>
    (Settings.ofFile (files (directory ++ "/" ++ Settings.fileName))).mapError
      (.configuration directory)

def paramsOf (files : String → FileText) (o : Options) : Except RunError Params :=
  match o.params, o.paramsFile with
  | some text, _ => match Params.parse? text with
    | some params => .ok params
    | none => .error .paramsNotJson
  | none, some path =>
    match files path with
    | .text text => match Params.parse? text with
      | some params => .ok params
      | none => .error (.paramsFileNotJson path)
    | _ => .error (.paramsFileUnreadable path)
  | none, none => .ok ∅

/-- The text of a JSON document, indented if asked for. -/
def jsonText (pretty : Bool) (v : Json) : String :=
  if pretty then v.pretty else v.compact

/-- A comment line for each parameter, numbered from `next`. -/
def paramComments (next : Nat) : List Value → String
  | [] => ""
  | v :: rest => "\n-- $" ++ next.repr ++ " = " ++ v.display ++ paramComments (next + 1) rest

/-- A query, laid out by `layout` if asked for, followed by its parameters in comments. -/
def queryText (layout : String → String) (pretty : Bool) (q : Sql.Query) : String :=
  (if pretty then layout q.text else q.text) ++ paramComments 1 q.params

def render (layout : String → String) (o : Options) (d : Descriptor) : Except RunError String :=
  match o.format.getD .descriptor with
  | .descriptor => .ok (jsonText o.pretty d.encode)
  | .document => ((Document.command d).mapError .document).map (jsonText o.pretty)
  | .sql => ((Sql.render d).mapError .sql).map (queryText layout o.pretty)

def run (layout : String → String) (files : String → FileText) (o : Options) :
    Except RunError String :=
  if o.printSchema then .ok Settings.schemaText
  else do
    let settings ← settingsOf files o
    let params ← paramsOf files o
    let d ← (compile settings (o.statement.getD "") params).mapError .compile
    render layout o d

/-! ### Directories as data -/

/-- A directory that stands at `root`: its files by their paths in it. -/
structure FileTree where
  root : String
  files : OrderedMap String

namespace FileTree

def pathParts (cs : List Char) : List (List Char) :=
  match cs with
  | [] => [[]]
  | c :: rest =>
    if c = '/' then [] :: pathParts rest
    else match pathParts rest with
      | [] => [[c]]
      | first :: others => (c :: first) :: others

/-- The parts of a path that lead somewhere. -/
def steps (path : String) : List (List Char) :=
  (pathParts path.toList).filter fun part => part ≠ [] ∧ part ≠ ['.']

/-- What reading a path gives. A directory cannot be read, and neither can a path through a file. -/
def read (tree : FileTree) (path : String) : FileText :=
  let wanted := steps path
  let root := steps tree.root
  let files := tree.files.entries.map fun e => (root ++ steps e.1, e.2)
  match files.find? fun e => e.1 = wanted with
  | some e => if path.toList.getLast? = some '/' then .unreadable else .text e.2
  | none =>
    if wanted = root || files.any fun e => wanted.isPrefixOf e.1 || e.1.isPrefixOf wanted then
      .unreadable
    else .missing

end FileTree

end SqlBridge.CommandLine
