import CadenceUplift.CommandLine.Clock
import CadenceUplift.CommandLine.Run

namespace CadenceUplift.Program

/-- The variable that names a settings file. -/
def settingsVariable : String := "CADENCE_UPLIFT_CONFIG"

def usageText : String :=
  "usage: cadence-uplift [--config PATH] [--log-level LEVEL] [--log-file PATH] " ++
    "(scan ROOT | migrate TEMPLATES | validate FILE | transform FILE) [OPTIONS]"

/-- The wall clock, read off a new file. -/
def now : IO String := do
  let (_, path) ← IO.FS.createTempFile
  let time := (← path.metadata).modified
  IO.FS.removeFile path
  return timeText time.sec.toNat (time.nsec.toNat / 1000)

def directoryOf (entries : List (String × { n : Node // n.Ordered })) : { n : Node // n.Ordered } :=
  let listed : { es : List (String × Node) // Node.EntriesOrdered es } :=
    entries.foldl (fun es e => ⟨Node.setEntry e.1 e.2.1 es.1, es.2.setEntry e.2.2⟩) ⟨[], trivial⟩
  ⟨.dir listed.1, listed.2⟩

/-- The node at a path of the file system. A link to a directory stays a link, so that it is not
entered. -/
partial def readNode (path : String) : IO { n : Node // n.Ordered } := do
  let real ← IO.FS.realPath path
  if ← real.isDir then
    let names := (← real.readDir).toList.map (·.fileName)
    let entries ← names.filterMapM fun name => do
      let inner := path ++ "/" ++ name
      try
        let target ← IO.FS.realPath inner
        if (← target.isDir) && target.toString != real.toString ++ "/" ++ name then
          return some (name, ⟨.link target.toString, trivial⟩)
        else return some (name, ← readNode inner)
      catch _ => return none
    return directoryOf entries
  else return ⟨.file (← IO.FS.readBinFile path).toList, trivial⟩

/-- Adds to a tree what the file system has at the parts of an absolute path, from those in `above` on:
directories on the way without their entries, and the last part with all of them if `deep`. -/
partial def addPath (t : FileTree) (deep : Bool) (above : List String) : List String → IO FileTree
  | [] => do
    if deep then
      let n ← readNode ("/" ++ "/".intercalate above)
      return t.setNode above n.1 n.2
    else return t
  | name :: rest => do
    let here := above ++ [name]
    let path := "/" ++ "/".intercalate here
    let real ← try pure (some (← IO.FS.realPath path)) catch _ => pure none
    match real with
    | none => return t
    | some real =>
      if !(← real.pathExists) then return t
      else if ← real.isDir then
        let known := (Node.entriesAt? here t.entries).isSome
        addPath (if known then t else t.setNode here (.dir [])) deep here rest
      else return t.setNode here (.file (← IO.FS.readBinFile path).toList)

/-- The paths that an invocation names, each with whether a directory there is read whole. -/
def namedPaths (i : Invocation) (environment : Option String) : List (String × Bool) :=
  let optional (o : Option String) : List (String × Bool) := ((given o).map fun p => (p, false)).toList
  optional i.config ++ optional environment ++
    match i.command with
    | .scan a => (a.root, true) :: optional a.outputDir
    | .migrate a => (a.templates, false) :: optional a.output ++ optional a.report
    | .validate file _ | .transform file _ => [(file, false)]

/-- Parts in which a step up undoes the step before it. -/
def plainParts (parts : List String) : List String :=
  parts.foldl (fun acc p => if p == ".." then acc.dropLast else acc ++ [p]) []

/-- The part of the file system that an invocation names, seen from the current directory. -/
def readTree (paths : List (String × Bool)) : IO FileTree := do
  let cwd := (Path.ofString (← IO.currentDir).toString).parts
  let start ← addPath { entries := [], cwd := cwd, ordered := trivial } false [] cwd
  paths.foldlM (fun t p => do
    let path := Path.ofString p.1
    addPath t p.2 [] (plainParts (if path.root.isEmpty then cwd ++ path.parts else path.parts))) start

/-- Writes the files of a later tree that changed. -/
def writeChanges (old new : FileTree) : IO Unit := do
  let changed := { old with cwd := [] }.changedFiles { new with cwd := [] }
  for (path, content) in changed do
    let full := Path.ofString ("/" ++ path)
    IO.FS.createDirAll full.parent.text
    IO.FS.writeBinFile full.text ⟨content.toArray⟩

/-- Runs the program on its arguments and gives its exit code. -/
def run (args : List String) : IO UInt32 := do
  match Invocation.ofArguments args with
  | .error stop =>
    (match stop with
      | .help => IO.println usageText
      | .badUsage => IO.eprintln usageText)
    return stop.exitCode.toUInt32
  | .ok i =>
    let environment ← IO.getEnv settingsVariable
    let tree ← readTree (namedPaths i environment)
    match i.run .yaml environment tree (← now) with
    | .ok r =>
      writeChanges tree r.tree
      IO.print r.stdout
      IO.eprint r.stderr
      return r.exitCode.toUInt32
    | .error e =>
      IO.eprintln e.message
      return 1

end CadenceUplift.Program

def main (args : List String) : IO UInt32 := CadenceUplift.Program.run args
