import CadenceUplift.Data.Json
import CadenceUplift.Data.Yaml.Document
import CadenceUplift.File.Access
import CadenceUplift.Migration.Template

namespace CadenceUplift

/-- Why a file gives no corpus. -/
inductive CorpusError where
  | unreadable (path : String) (e : ReadError)
  | malformed (path : String) (e : Yaml.Fault)
  | notList (path : String)
  | template (path : String) (e : TemplateError)
deriving Repr, Inhabited

/-- The error is one of the file's form, and is told with the path. -/
def CorpusError.isFormal : CorpusError → Bool
  | .malformed _ e => e.isPlain
  | .template _ (.notFinite (.infinite _)) => false
  | _ => true

def CorpusError.message (e : CorpusError) : String :=
  match e with
  | .unreadable path e => "Cannot read templates from '" ++ path ++ "': " ++ e.message
  | .malformed path fault =>
    if e.isFormal then "Cannot read templates from '" ++ path ++ "': " ++ fault.message else fault.message
  | .notList path => "Template file '" ++ path ++ "' must contain a list of templates"
  | .template path fault =>
    if e.isFormal then "Malformed template in '" ++ path ++ "': " ++ fault.message else fault.message

/-- Why a corpus could not be written to a file. -/
inductive CorpusWriteError where
  | file (e : WriteError)
  | value (e : Json.Unwritable)
deriving Repr, Inhabited

def CorpusWriteError.message : CorpusWriteError → String
  | .file e => e.message
  | .value e => e.message

namespace Corpus

def document (path : String) (s : List Char) : Except CorpusError Value :=
  if path.endsWith ".json" then
    match Json.parse? s with
    | some v => .ok v
    | none => .error (.malformed path .malformed)
  else (Yaml.parse s).mapError (.malformed path)

def items? : Value → Option (List Value)
  | .list items => some items
  | v =>
    match v.field? "templates" with
    | some (.list items) => some items
    | _ => none

def load (t : FileTree) (path : String) : Except CorpusError (List Template) := do
  let s ← (t.readText path).mapError (.unreadable path)
  let some items := items? (← document path s) | .error (.notList path)
  items.mapM fun v => (Template.ofValue v).mapError (.template path)

/-- Writes a corpus to a file, making directories as needed. Where it cannot be put is found out before
what cannot be written. -/
def save (t : FileTree) (path : String) (ts : List Template) : Except CorpusWriteError FileTree := do
  let t ← (t.makeParent path).mapError (.file ∘ .file)
  let _ ← (t.writeText path "").mapError .file
  let s ← (Json.write (.list (ts.map (·.toValue)))).mapError .value
  (t.writeText path s).mapError .file

end Corpus

end CadenceUplift
