import RecordWire.Document
import RecordWire.Emit.Module
import RecordWire.Event
import RecordWire.Host
import RecordWire.Schema.Resolved

/-!
From a schema document to generated code.
-/

namespace RecordWire

inductive CodegenError where
  | document (error : DocumentError)
  | schema (error : SchemaError)
  | file (error : FileError)
  | generation (error : Emit.GenerationError)
  deriving DecidableEq

def CodegenError.message : CodegenError → String
  | document error => "schema parse error: " ++ error.message
  | schema error => "schema error: " ++ error.message
  | file error => "IO error: " ++ error.message
  | generation error => "generation error: " ++ error.message

def Schema.generate (s : Schema) (c : Emit.Config) : Traced CodegenError String := do
  let resolved ← s.resolve.mapError .schema
  (Emit.generate resolved c).mapError .generation

def generateText (text : String) (c : Emit.Config) : Traced CodegenError String := do
  let schema ← .ofExcept ((Schema.ofText text).mapError .document)
  schema.generate c

def generateBytes (bytes : ByteArray) : Traced CodegenError String := do
  let schema ← .ofExcept ((Schema.ofBytes bytes).mapError .document)
  schema.generate {}

section Files

variable {m : Type → Type} [Monad m]

/-- Generates code for a schema file and names its path in the banner. -/
def generateFile (files : Files m) (path : String) : m (Traced CodegenError String) := do
  let document ← files.readText path
  return do
    let text ← .ofExcept (document.mapError .file)
    generateText text { source := some path }

/-- Generates code for a schema file and writes it once it is complete.  The banner names the file
without its directories. -/
def generateToFile (files : Files m) (path output : String) (c : Emit.Config) :
    m (Traced CodegenError Unit) := do
  let document ← files.readText path
  let source := c.source.getD ((Path.fileName? path).getD path)
  let traced : Traced CodegenError String := do
    let text ← .ofExcept (document.mapError .file)
    generateText text { c with source := some source }
  match traced.result with
  | .error e => return ⟨traced.events, .error e⟩
  | .ok code => return ⟨traced.events, (← files.write output code.toUTF8).mapError .file⟩

end Files
end RecordWire
