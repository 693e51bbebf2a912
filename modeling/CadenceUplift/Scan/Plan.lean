import CadenceUplift.File.Access
import CadenceUplift.Migration.Records
import CadenceUplift.Migration.Template
import CadenceUplift.Scan.Content
import CadenceUplift.Scan.Result

namespace CadenceUplift

/-- The suffixes of files that are read unless others are given. -/
def defaultExtensions : List String := [".cdc", ".ts", ".tsx", ".js", ".jsx", ".md"]

/-- Fragments of directory names that are not entered unless others are given. -/
def defaultExcludeDirs : List String := ["node_modules", ".next", ".git", "dist", "build", "__pycache__"]

/-- Fragments of paths that a scan of production code leaves out. -/
def productionExcludes : List String :=
  ["__tests__", ".test.", ".spec.", ".kiro", "docs", "README", "CHANGELOG", "LICENSE"]

/-- How a scan is done. -/
structure ScanPlan where
  policy : Policy := .downgrade
  extensions : List String := defaultExtensions
  excludeDirs : List String := defaultExcludeDirs
  excludePaths : List String := []
  /-- How many files are scanned at a time. -/
  workers : Nat := 1
deriving Repr, Inhabited

/-- The given list, or the default one when it is empty. -/
def orDefault (given default : List String) : List String := if given.isEmpty then default else given

namespace ScanPlan

/-- A plan of a policy; empty lists of suffixes and directories mean the default ones. -/
def make (policy : Policy) (extensions excludeDirs excludePaths : List String) (workers : Nat) : ScanPlan :=
  ⟨policy, orDefault extensions defaultExtensions, orDefault excludeDirs defaultExcludeDirs, excludePaths,
    max 1 workers⟩

/-- A plan that keeps every match. -/
def general (extensions excludeDirs excludePaths : List String) (workers : Nat) : ScanPlan :=
  make .downgrade extensions excludeDirs excludePaths workers

/-- A plan for production code only. -/
def production (extensions excludeDirs excludePaths : List String) (workers : Nat) : ScanPlan :=
  make .discard extensions excludeDirs (excludePaths ++ productionExcludes) workers

def wants (sc : ScanPlan) (relative : List String) : Bool :=
  sc.extensions.contains (Path.suffixOf (relative.getLastD "")) &&
    !hasFragment ("/".intercalate relative) sc.excludePaths

def entryPath (root : Path) (relative : List String) : Path := { root with parts := root.parts ++ relative }

mutual

/-- The entries that a walk through a directory meets, each with its path from the scanned root. What is in a directory
comes right behind it; directories with an excluded name are not entered, and neither are links. `relative` is the path
of the directory itself. -/
def metAmong (excluded : List String) (relative : List String) : List (String × Node) → List (List String × Node)
  | [] => []
  | (name, n) :: rest => metAt excluded (relative ++ [name]) name n ++ metAmong excluded relative rest

/-- The entries that a walk meets at one entry and inside it. -/
def metAt (excluded : List String) (relative : List String) (name : String) : Node → List (List String × Node)
  | .file content => [(relative, .file content)]
  | .link target => [(relative, .link target)]
  | .dir entries =>
    (relative, .dir entries) :: if hasFragment name excluded then [] else metAmong excluded relative entries

end

/-- The entries that a walk from a root meets. -/
def met (sc : ScanPlan) (t : FileTree) (root : Path) : List (List String × Node) :=
  match t.locatePath root with
  | .found _ (.dir entries) => metAmong sc.excludeDirs [] entries
  | _ => []

/-- An entry is a file to be read, by itself or as a link to one. -/
def picks (sc : ScanPlan) (t : FileTree) (root : Path) (relative : List String) : Node → Bool
  | .file _ => sc.wants relative
  | .link _ => t.isFile (entryPath root relative) && sc.wants relative
  | .dir _ => false

/-- The files to be read under a root, as paths from it. -/
def collect (sc : ScanPlan) (t : FileTree) (root : Path) : List (List String) :=
  ((sc.met t root).filter fun e => sc.picks t root e.1 e.2).map (·.1)

/-- Why a walk breaks off: the first entry that it meets and cannot look up. -/
def fault? (sc : ScanPlan) (t : FileTree) (root : Path) : Option FileError :=
  (sc.met t root).findSome? fun e => t.lookUpFault? (entryPath root e.1)

/-- The files to be read under a root, unless the walk breaks off. -/
def walk (sc : ScanPlan) (t : FileTree) (root : Path) : Except FileError (List (List String)) :=
  match sc.fault? t root with
  | some e => .error e
  | none => .ok (sc.collect t root)

end ScanPlan

/-- What came of one file. -/
structure FileScan where
  path : String
  /-- The scan, or why the file could not be read. -/
  outcome : Except ReadError TextScan
deriving Inhabited

namespace FileScan

def readable (f : FileScan) : Bool := f.outcome.toOption.isSome

/-- The findings of a file; none when it could not be read. -/
def findings (f : FileScan) : List Finding := (f.outcome.toOption.map (·.findings)).getD []

def suppressed (f : FileScan) : Nat := (f.outcome.toOption.map (·.suppressed)).getD 0

/-- The record of a file that could not be read. -/
def error? (f : FileScan) : Option ErrorRecord :=
  match f.outcome with
  | .error e => some (.system f.path e.message)
  | .ok _ => none

end FileScan

/-- Scans one file under a root. -/
def ScanPlan.scanAt (sc : ScanPlan) (t : FileTree) (root : Path) (relative : List String) : FileScan :=
  let path := "/".intercalate relative
  ⟨path, (t.readText (ScanPlan.entryPath root relative).text).map fun s => scanText sc.policy s path none⟩

def resultOf (scans : List FileScan) : ScanResult :=
  let failed := (scans.filter fun f => !f.readable).map (·.path)
  buildResult (scans.flatMap (·.findings)) (scans.filter (·.readable)).length
    (sumOf (scans.map (·.suppressed))) (failed.mergeSort fun a b => decide (a ≤ b))

/-- Scans in the order in which their findings are taken up: several workers finish in any order, so
their scans are put in order of path first. -/
def ScanPlan.arrange (sc : ScanPlan) (finished : List FileScan) : List FileScan :=
  if sc.workers = 1 then finished else finished.mergeSort fun a b => decide (a.path ≤ b.path)

/-- A scan of a tree. -/
structure TreeScan where
  result : ScanResult
  errors : List ErrorRecord
deriving Inhabited

/-- What comes of the files that are handed out under a root. -/
def ScanPlan.scanFiles (sc : ScanPlan) (t : FileTree) (root : Path) (files : List (List String)) : TreeScan :=
  let scans := files.map (sc.scanAt t root)
  { result := resultOf (sc.arrange scans), errors := scans.filterMap (·.error?) }

/-- Why no tree can be scanned from a root. -/
def FileTree.rootFault? (t : FileTree) (root : String) : Option ScanError :=
  match t.locatePath (Path.ofString root) with
  | .found _ (.dir _) => none
  | .nameTooLong => some (.file (.nameTooLong (Path.ofString root).text))
  | _ => some (.noDirectory root)

/-- Why the code of a template could not be scanned. -/
structure CodeNotText where
  code : Value
deriving Repr, Inhabited

/-- The wording of code that is not a text. -/
def CodeNotText.message (e : CodeNotText) : String :=
  "'" ++ e.code.kindWord ++ "' object has no attribute 'split'"

/-- Scans the code of one template. -/
def ScanPlan.scanOne (sc : ScanPlan) (t : Template) : Except CodeNotText TextScan :=
  match t.code with
  | .text s => .ok (scanText sc.policy s.toList t.label (some true))
  | v => .error ⟨v⟩

def ScanPlan.scanCorpus (sc : ScanPlan) (ts : List Template) : Except CodeNotText ScanResult := do
  let scans ← ts.mapM sc.scanOne
  return buildResult (scans.flatMap (·.findings)) ts.length (sumOf (scans.map (·.suppressed))) []

end CadenceUplift
