import CadenceUplift.File.Access

namespace CadenceUplift

/-- Why a scan or a report on it cannot be made. -/
inductive ScanError where
  | noDirectory (root : String)
  /-- The root or an entry under it could not even be looked up. -/
  | file (e : FileError)
  | unknownPolicy (name : String)
  | unknownFormat (name : String)
deriving DecidableEq, Repr, Inhabited

def ScanError.message : ScanError → String
  | .noDirectory root => "Scan root does not exist or is not a directory: " ++ root
  | .file e => e.message
  | .unknownPolicy name => "Unknown suppression policy: " ++ name
  | .unknownFormat name => "Unsupported output format: " ++ name

end CadenceUplift
