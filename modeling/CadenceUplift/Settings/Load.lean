import CadenceUplift.Data.Yaml.Document
import CadenceUplift.File.Access
import CadenceUplift.Settings.Basic

namespace CadenceUplift

/-- What is wrong with a settings file. -/
inductive SettingsCause where
  | noFile
  | notFile
  | malformed
  | unreadable (e : FileError)
  | empty
  | notMapping
  | invalid (issues : List SettingIssue)
deriving DecidableEq, Repr, Inhabited

def SettingsCause.wording : SettingsCause → String
  | .noFile => "File does not exist"
  | .notFile => "Path is not a file"
  | .malformed => "YAML parsing failed"
  | .unreadable e => "Failed to read file: " ++ e.message
  | .empty => "Config file is empty"
  | .notMapping => "Config must be a YAML dictionary"
  | .invalid _ => "Validation failed"

/-- Why no document could be read from a file. -/
inductive DocumentFailure where
  /-- The octets are no text. -/
  | decoding (e : Text.Utf8Error)
  /-- The text is no document. -/
  | document (e : Yaml.Fault)
deriving DecidableEq, Repr, Inhabited

/-- How documents are read from the octets of a file, and settings from a mapping of names. -/
structure SettingsReader where
  document : List UInt8 → Except DocumentFailure Value
  construct : List (String × Value) → Except (List SettingIssue) Settings

/-- A fault as it is reported by a reader that takes octets in parts: what is missing at the end is
missing from a last part, which starts with the unfinished character. -/
def Text.Utf8Error.inParts (e : Text.Utf8Error) : Text.Utf8Error :=
  match e.reason with
  | .endOfData => { e with start := 0 }
  | _ => e

def SettingsReader.yaml : SettingsReader where
  document content :=
    match Text.decodeUtf8 content with
    | .error e => .error (.decoding e.inParts)
    | .ok cs => (Yaml.parse (Text.unifyNewlines cs)).mapError .document
  construct entries :=
    match Settings.ofEntries (entries.map fun e => (.text e.1, e.2)) with
    | .ok s => .ok s
    | .bad issues => .error issues

/-- Why no settings could be loaded. -/
inductive SettingsError where
  /-- The file is at fault. -/
  | configuration (path : String) (cause : SettingsCause)
  /-- The octets of the file are no text. -/
  | decoding (e : Text.Utf8Error)
  /-- A scalar of the file is not what its tag says. -/
  | document (e : Yaml.Fault)
  /-- A key at the top of the file is not a text. -/
  | keyNotText
deriving DecidableEq, Repr, Inhabited

def SettingsError.message : SettingsError → String
  | .configuration path cause => "Invalid configuration '" ++ path ++ "': " ++ cause.wording
  | .decoding e => e.message
  | .document e => e.message
  | .keyNotText => "keywords must be strings"

namespace Settings

/-- The entries of a mapping, unless a key is not a text. -/
def named? : List (Value × Value) → Option (List (String × Value))
  | [] => some []
  | (.text name, v) :: rest => (named? rest).map ((name, v) :: ·)
  | _ :: _ => none

def ofDocument (reader : SettingsReader) (path : String) : Value → Except SettingsError Settings
  | .null => .error (.configuration path .empty)
  | .object entries =>
    match named? entries with
    | none => .error .keyNotText
    | some named => (reader.construct named).mapError fun issues => .configuration path (.invalid issues)
  | _ => .error (.configuration path .notMapping)

def load (reader : SettingsReader) (t : FileTree) (path : String) : Except SettingsError Settings :=
  match t.locate path with
  | .found _ (.file _) =>
    match t.readFile path with
    | .error e => .error (.configuration path (.unreadable e))
    | .ok content =>
      match reader.document content with
      | .error (.decoding e) => .error (.decoding e)
      | .error (.document .malformed) => .error (.configuration path .malformed)
      | .error (.document e) => .error (.document e)
      | .ok v => ofDocument reader path v
  | .found _ _ => .error (.configuration path .notFile)
  | _ => .error (.configuration path .noFile)

/-- The settings of the file that a flag names, or else the environment, or else the default ones; an
empty name names no file. -/
def resolve (reader : SettingsReader) (t : FileTree) (flag environment : Option String) :
    Except SettingsError Settings :=
  match (flag.filter (· != "")).or (environment.filter (· != "")) with
  | some path => load reader t path
  | none => .ok {}

end Settings

end CadenceUplift
