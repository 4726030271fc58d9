import SqlBridge.Statement.Select
import SqlBridge.Statement.Write
import SqlBridge.Token.Lexer

/-!
# Compiling statements

The first word of a statement says what it is. Compiling is a function of the settings, the
statement and the parameters, and yields a complete descriptor or an error.
-/

namespace SqlBridge

namespace Statement

/-- The kinds of statements that can be told from the first word. -/
inductive Opening where
  | select
  | insert
  | update
  | delete
  | procedure
deriving DecidableEq, Repr

def opening? (word : String) : Option Opening :=
  match Text.upper word with
  | "SELECT" => some .select
  | "INSERT" => some .insert
  | "UPDATE" => some .update
  | "DELETE" => some .delete
  | keyword => if Procedure.keywords.contains keyword then some .procedure else none

def readerOf (ctx : Context) : Opening → Reader Descriptor
  | .select => Select.statement ctx
  | .insert => Insert.statement ctx
  | .update => Update.statement ctx
  | .delete => Delete.statement ctx
  | .procedure => Procedure.statement ctx

def reader (ctx : Context) : Reader Descriptor := do
  match ← Reader.peek with
  | none => Reader.fail (.unrecognizedStatement "")
  | some (.word text) =>
    match opening? text with
    | some opening => readerOf ctx opening
    | none => Reader.fail (.unrecognizedStatement (Text.upper text))
  | some token => Reader.fail (.unrecognizedStatement token.display)

def ofTokens (ctx : Context) (tokens : List Token) : Except CompileError Descriptor :=
  ((reader ctx).run tokens).1

/-- The statement without blanks around it and without semicolons at its end. -/
def normalize (text : String) : String :=
  String.ofList
    (Text.trimEndWhere (fun c => c = ';' || Text.isBlank c) (Text.trim text.toList))

end Statement

def compile (settings : Settings) (statement : String) (params : Params) :
    Except CompileError Descriptor := do
  let tokens ← Token.tokenize (Statement.normalize statement)
  Statement.ofTokens ⟨settings, params⟩ tokens

end SqlBridge
