import CadenceUplift.Text.Quoted

namespace CadenceUplift

/-- A path. -/
structure Path where
  /-- Empty for a relative path. -/
  root : String
  parts : List String
deriving DecidableEq, Repr, Inhabited

namespace Path

def pieces (s : String) : List String := (s.toList.splitOn '/').map String.ofList

/-- The root that a path text starts with: exactly two slashes are a root of their own. -/
def rootOf (s : String) : String :=
  match s.toList with
  | '/' :: '/' :: '/' :: _ => "/"
  | '/' :: '/' :: _ => "//"
  | '/' :: _ => "/"
  | _ => ""

def ofString (s : String) : Path := ⟨rootOf s, (pieces s).filter fun p => p != "" && p != "."⟩

/-- The text of a path; the empty relative path is a dot. -/
def text (p : Path) : String :=
  if p.root.isEmpty && p.parts.isEmpty then "." else p.root ++ "/".intercalate p.parts

/-- The last part, or nothing. -/
def name (p : Path) : String := p.parts.getLastD ""

/-- The path without its last part. -/
def parent (p : Path) : Path := { p with parts := p.parts.dropLast }

/-- A path inside this one. -/
def child (p : Path) (name : String) : Path := { p with parts := p.parts ++ [name] }

/-- A name cut at its last dot, unless that dot is its first or last character. -/
def splitName (name : String) : String × String :=
  let cs := name.toList
  let tail := (cs.reverse.takeWhile (· != '.')).reverse
  let stem := cs.take (cs.length - tail.length - 1)
  if cs.contains '.' && !tail.isEmpty && !stem.isEmpty then
    (String.ofList stem, String.ofList ('.' :: tail))
  else (name, "")

/-- The suffix of a name, with its dot. -/
def suffixOf (name : String) : String := (splitName name).2

end Path

/-- A path without a name where one is needed. -/
structure NoName where
  path : String
deriving DecidableEq, Repr, Inhabited

def NoName.message (e : NoName) : String := "PosixPath(" ++ Text.quotedString e.path ++ ") has an empty name"

/-- What stands between stem and suffix in the name of a backup file. -/
def backupMark : String := ".orig"

/-- The path of the backup that belongs to an output. -/
def backupPath (output : String) : Except NoName String :=
  let p := Path.ofString output
  if p.name.isEmpty then .error ⟨p.text⟩
  else
    let (stem, suffix) := Path.splitName p.name
    .ok (p.parent.child (stem ++ backupMark ++ suffix)).text

end CadenceUplift
