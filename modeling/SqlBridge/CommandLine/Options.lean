/-!
# Command line options

Arguments are taken one by one. An option that wants a value waits for it; the value is looked at
only when the next option, flag or statement is taken, or at the end. After `--` every argument is
a statement. An option may be given once, and only `-v` may repeat.
-/

namespace SqlBridge.CommandLine

inductive Format where
  /-- The descriptor as JSON. -/
  | descriptor
  /-- SQL followed by its parameters. -/
  | sql
  /-- The document-store command as JSON. -/
  | document
deriving DecidableEq, Inhabited, Repr

def Format.ofName? : String → Option Format
  | "descriptor" => some .descriptor
  | "sql" => some .sql
  | "document" => some .document
  | _ => none

/-- What the arguments ask for. -/
structure Options where
  configuration : Option String := none
  params : Option String := none
  paramsFile : Option String := none
  format : Option Format := none
  pretty : Bool := false
  verbose : Nat := 0
  printSchema : Bool := false
  statement : Option String := none
deriving DecidableEq, Inhabited, Repr

/-- Why arguments ask for nothing that can be run. -/
inductive UsageError where
  | missingRequiredArgument
  | argumentConflict
  | invalidValue
  | tooManyValues
  | unknownArgument
  | displayHelp
  | displayVersion
deriving DecidableEq, Repr

def UsageError.name : UsageError → String
  | .missingRequiredArgument => "MissingRequiredArgument"
  | .argumentConflict => "ArgumentConflict"
  | .invalidValue => "InvalidValue"
  | .tooManyValues => "TooManyValues"
  | .unknownArgument => "UnknownArgument"
  | .displayHelp => "DisplayHelp"
  | .displayVersion => "DisplayVersion"

inductive ValueOption where
  | configuration
  | params
  | paramsFile
  | format
deriving DecidableEq, Repr

inductive Flag where
  | pretty
  | verbose
  | printSchema
  | help
  | version
deriving DecidableEq, Repr

def longOption? : String → Option (ValueOption ⊕ Flag)
  | "configuration" => some (.inl .configuration)
  | "params" => some (.inl .params)
  | "params-file" => some (.inl .paramsFile)
  | "format" => some (.inl .format)
  | "pretty" => some (.inr .pretty)
  | "verbose" => some (.inr .verbose)
  | "print-schema" => some (.inr .printSchema)
  | "help" => some (.inr .help)
  | "version" => some (.inr .version)
  | _ => none

def shortFlag? : Char → Option Flag
  | 'v' => some .verbose
  | 'h' => some .help
  | 'V' => some .version
  | _ => none

namespace Options

/-- Set an option that is not set yet. Paths must not be empty. -/
def setValue (o : Options) (option : ValueOption) (value : String) :
    Except UsageError Options :=
  match option with
  | .configuration =>
    if o.configuration.isSome then .error .argumentConflict
    else if value.isEmpty then .error .invalidValue
    else .ok { o with configuration := some value }
  | .params =>
    if o.params.isSome then .error .argumentConflict
    else .ok { o with params := some value }
  | .paramsFile =>
    if o.paramsFile.isSome then .error .argumentConflict
    else if value.isEmpty then .error .invalidValue
    else .ok { o with paramsFile := some value }
  | .format =>
    if o.format.isSome then .error .argumentConflict
    else match Format.ofName? value with
      | some f => .ok { o with format := some f }
      | none => .error .invalidValue

/-- Set a flag that is not set yet, or count it. -/
def setFlag (o : Options) : Flag → Except UsageError Options
  | .pretty => if o.pretty then .error .argumentConflict else .ok { o with pretty := true }
  | .verbose => .ok { o with verbose := o.verbose + 1 }
  | .printSchema =>
    if o.printSchema then .error .argumentConflict else .ok { o with printSchema := true }
  | .help => .error .displayHelp
  | .version => .error .displayVersion

def check (o : Options) : Except UsageError Options :=
  if o.params.isSome && o.paramsFile.isSome then .error .argumentConflict
  else if o.printSchema && o.statement.isSome then .error .argumentConflict
  else if !o.printSchema && o.statement.isNone then .error .missingRequiredArgument
  else .ok o

end Options

/-- How far the arguments are taken. -/
structure Progress where
  options : Options := {}
  /-- An option that is not set yet, with its value if it was given. -/
  pending : Option (ValueOption × Option String) := none
  /-- Whether `--` was taken. -/
  onlyStatements : Bool := false

namespace Progress

/-- Set the pending option, which must have a value by now. -/
def settle (p : Progress) : Except UsageError Progress :=
  match p.pending with
  | none => .ok p
  | some (_, none) => .error .invalidValue
  | some (option, some value) => do
    let options ← p.options.setValue option value
    pure { p with options, pending := none }

def takeFlag (p : Progress) (f : Flag) : Except UsageError Progress := do
  let p ← p.settle
  let options ← p.options.setFlag f
  pure { p with options }

def takeStatement (p : Progress) (s : String) : Except UsageError Progress :=
  if p.options.statement.isSome then .error .unknownArgument
  else do
    let p ← p.settle
    pure { p with options := { p.options with statement := some s } }

/-- Take a long option, its dashes being taken off. A value may be attached with an equals sign. -/
def takeLong (p : Progress) (cs : List Char) : Except UsageError Progress :=
  let attached := match cs.dropWhile (· ≠ '=') with
    | [] => none
    | _ :: value => some (String.ofList value)
  match longOption? (String.ofList (cs.takeWhile (· ≠ '='))), attached with
  | none, _ => .error .unknownArgument
  | some (.inl option), some value => do
    let p ← p.settle
    let options ← p.options.setValue option value
    pure { p with options }
  | some (.inl option), none => do
    let p ← p.settle
    pure { p with pending := some (option, none) }
  | some (.inr _), some _ => .error .tooManyValues
  | some (.inr f), none => p.takeFlag f

def takeShort (p : Progress) : List Char → Except UsageError Progress
  | [] => .ok p
  | c :: rest =>
    match shortFlag? c with
    | none => .error .unknownArgument
    | some f => do
      let p ← p.takeFlag f
      takeShort p rest

def take (p : Progress) (argument : String) : Except UsageError Progress :=
  if p.onlyStatements then p.takeStatement argument
  else match argument.toList with
    | ['-', '-'] => .ok { p with onlyStatements := true }
    | '-' :: '-' :: cs => p.takeLong cs
    | '-' :: c :: cs => p.takeShort (c :: cs)
    | _ =>
      match p.pending with
      | some (option, none) => .ok { p with pending := some (option, some argument) }
      | _ => p.takeStatement argument

end Progress

def Options.parse (arguments : List String) : Except UsageError Options := do
  let p ← arguments.foldlM Progress.take {}
  let p ← p.settle
  p.options.check

end SqlBridge.CommandLine
