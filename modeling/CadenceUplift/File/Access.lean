import CadenceUplift.File.Tree
import CadenceUplift.Text.Utf8

namespace CadenceUplift

/-- Why a file operation failed. -/
inductive FileError where
  | notFound (path : String)
  | alreadyThere (path : String)
  | notDirectory (path : String)
  | isDirectory (path : String)
  | nameTooLong (path : String)
  | tooManyLinks (path : String)
  /-- The text is no path at all. -/
  | notPath
deriving DecidableEq, Repr, Inhabited

namespace FileError

def message : FileError → String
  | .notFound p => "[Errno 2] No such file or directory: " ++ Text.quotedString p
  | .alreadyThere p => "[Errno 17] File exists: " ++ Text.quotedString p
  | .notDirectory p => "[Errno 20] Not a directory: " ++ Text.quotedString p
  | .isDirectory p => "[Errno 21] Is a directory: " ++ Text.quotedString p
  | .nameTooLong p => "[Errno 36] File name too long: " ++ Text.quotedString p
  | .tooManyLinks p => "[Errno 40] Too many levels of symbolic links: " ++ Text.quotedString p
  | .notPath => "embedded null byte"

/-- The error of a path at which nothing is found. -/
def ofLocated (path : String) : Located → FileError
  | .found .. | .absent _ | .noParent => .notFound path
  | .notDirectory => .notDirectory path
  | .tooManyLinks => .tooManyLinks path
  | .nameTooLong => .nameTooLong path
  | .notPath => .notPath

end FileError

namespace FileTree

/-- Why the entry at a path cannot be looked up: the path, or a name that a link there leads through, is too long. A link
to nothing is no such case, and a circle of links is none either. -/
def lookUpFault? (t : FileTree) (p : Path) : Option FileError :=
  match t.locatePath p with
  | .nameTooLong => some (.nameTooLong p.text)
  | _ => none

def readFile (t : FileTree) (path : String) : Except FileError (List UInt8) :=
  match t.locate path with
  | .found _ (.file content) => .ok content
  | .found _ _ => .error (.isDirectory path)
  | l => .error (.ofLocated path l)

/-- A path text without its last part and the slashes around it. -/
def aboveLast (path : String) : String :=
  let body := path.toList.reverse.dropWhile (· == '/')
  String.ofList (body.dropWhile (· != '/')).reverse

/-- Writes a file; its directory must exist. A slash at the end asks for a directory, which cannot be
written. -/
def writeFile (t : FileTree) (path : String) (content : List UInt8) : Except FileError FileTree :=
  if !isPathText path then .error .notPath
  else if path.endsWith "/" then
    let above := aboveLast path
    match t.locate (if above.isEmpty then "." else above) with
    | .found _ (.dir _) => .error (.isDirectory path)
    | l => .error (.ofLocated path l)
  else
    match t.locate path with
    | .found real (.file _) => .ok (t.setNode real (.file content))
    | .absent real => .ok (t.setNode real (.file content))
    | .found _ _ => .error (.isDirectory path)
    | l => .error (.ofLocated path l)

/-- Makes one directory in a directory that exists; a link in its place counts as something there. -/
def makeDirectory (t : FileTree) (p : Path) : Except FileError FileTree :=
  match if isPathText p.text then t.locatePath p.parent else .notPath with
  | .found real (.dir entries) =>
    if p.parts.isEmpty || p.name == ".." then .error (.alreadyThere p.text)
    else if maxNameSize < p.name.utf8ByteSize then .error (.nameTooLong p.text)
    else if (entries.lookup p.name).isSome then .error (.alreadyThere p.text)
    else .ok (t.setNode (real ++ [p.name]) (.dir []))
  | .found .. => .error (.notDirectory p.text)
  | l => .error (.ofLocated p.text l)

/-- Makes a directory unless it is there, in a directory that exists. -/
def ensureDirectory (t : FileTree) (p : Path) : Except FileError FileTree :=
  match t.makeDirectory p with
  | .error e => if t.isDirectory p then .ok t else .error e
  | .ok t => .ok t

/-- Makes a directory and those above it; what is there already is left alone. -/
def makeDirectories (t : FileTree) (p : Path) : Except FileError FileTree :=
  match t.ensureDirectory p with
  | .error (.notFound path) =>
    if _h : p.parts = [] then .error (.notFound path)
    else do
      let above ← makeDirectories t p.parent
      above.ensureDirectory p
  | r => r
termination_by p.parts.length
decreasing_by
  have := List.length_pos_iff.mpr ‹p.parts ≠ []›
  simp [Path.parent]
  omega

/-- Makes the directory that is to hold a file. -/
def makeParent (t : FileTree) (path : String) : Except FileError FileTree :=
  t.makeDirectories (Path.ofString path).parent

end FileTree

/-- Why a text file could not be read. -/
inductive ReadError where
  | file (e : FileError)
  | decoding (e : Text.Utf8Error)
deriving DecidableEq, Repr, Inhabited

def ReadError.message : ReadError → String
  | .file e => e.message
  | .decoding e => e.message

/-- Why a text file could not be written. -/
inductive WriteError where
  | file (e : FileError)
  | encoding (e : Text.HalfRun)
deriving DecidableEq, Repr, Inhabited

def WriteError.message : WriteError → String
  | .file e => e.message
  | .encoding e => e.message

/-- Reads a text file, its line ends brought to one form. -/
def FileTree.readText (t : FileTree) (path : String) : Except ReadError (List Char) :=
  match t.readFile path with
  | .error e => .error (.file e)
  | .ok bytes =>
    match Text.decodeUtf8 bytes with
    | .error e => .error (.decoding e)
    | .ok s => .ok (Text.unifyNewlines s)

/-- Writes a text file. Where it cannot be put is found out before what cannot be written. -/
def FileTree.writeText (t : FileTree) (path : String) (s : String) : Except WriteError FileTree := do
  let _ ← (t.writeFile path []).mapError .file
  (t.writeFile path (← (Text.encode s).mapError .encoding)).mapError .file

end CadenceUplift
