import CadenceUplift.File.Access
import CadenceUplift.Scan.Report

namespace CadenceUplift

/-- Writes a report to a path, making directories as needed. -/
def ScanResult.save (r : ScanResult) (t : FileTree) (path : Path) (format : ReportFormat) (o : ReportOptions)
    (generatedAt : String) : Except WriteError FileTree := do
  let t ← (t.makeParent path.text).mapError .file
  t.writeText path.text (r.render format o generatedAt)

/-- The name of report files, without a suffix. -/
def reportName : String := "legacy-patterns-report"

/-- Writes reports in several formats to a directory: the tree after it, and the paths of the reports. -/
def ScanResult.saveAll (r : ScanResult) (dir : Path) (o : ReportOptions) (generatedAt : String) :
    List ReportFormat → FileTree → Except WriteError (FileTree × List String)
  | [], t => .ok (t, [])
  | format :: rest, t => do
    let path := dir.child (reportName ++ format.suffix)
    let t ← r.save t path format o generatedAt
    let (t, paths) ← r.saveAll dir o generatedAt rest t
    return (t, path.text :: paths)

end CadenceUplift
