import CadenceUplift.Data.Json
import CadenceUplift.Scan.Error
import CadenceUplift.Scan.Result

namespace CadenceUplift

/-- The forms a report can take. -/
inductive ReportFormat where
  | markdown
  | json
  | csv
deriving DecidableEq, Repr, Inhabited

def ReportFormat.ofName? : String → Option ReportFormat
  | "markdown" => some .markdown
  | "json" => some .json
  | "csv" => some .csv
  | _ => none

/-- The format of a name, which must be one. -/
def ReportFormat.ofName (name : String) : Except ScanError ReportFormat :=
  match ReportFormat.ofName? name with
  | some f => .ok f
  | none => .error (.unknownFormat name)

/-- All formats, in the order in which they are written. -/
def ReportFormat.all : List ReportFormat := [.markdown, .json, .csv]

def ReportFormat.suffix : ReportFormat → String
  | .markdown => ".md"
  | .json => ".json"
  | .csv => ".csv"

/-- What a report is to show. -/
structure ReportOptions where
  includeContext : Bool := true
  groupByFile : Bool := false
deriving DecidableEq, Repr, Inhabited

namespace Severity

/-- The mark that stands for a severity. -/
def icon : Severity → String
  | .critical => "🚨"
  | .warning => "⚠️"
  | .suggestion => "💡"
  | .other _ => ""

/-- The priority that a severity is given. -/
def priority : Severity → String
  | .critical => "HIGH"
  | .warning => "MEDIUM"
  | .suggestion => "LOW"
  | .other _ => ""

def heading : Severity → String
  | .critical => "CRITICAL"
  | .warning => "WARNING"
  | .suggestion => "SUGGESTION"
  | .other _ => ""

/-- The title and the text of a severity's recommendation. -/
def recommendation : Severity → String × String
  | .critical => ("Immediate Action Required", "critical patterns must be fixed before deployment")
  | .warning => ("High Priority", "warning patterns should be addressed soon")
  | .suggestion => ("Improvement Opportunities", "suggestion patterns could be improved when convenient")
  | .other _ => ("", "")

end Severity

namespace Markdown

/-- Title, time and summary. -/
def header (r : ScanResult) (generatedAt : String) : List String := [
  "# Legacy Cadence Patterns Scan Report", "", "Generated: " ++ generatedAt, "", "## Executive Summary", "",
  r.summary, ""]

/-- Totals and the tables of counts. -/
def statistics (r : ScanResult) : List String :=
  ["## Scan Statistics", "",
    "- **Total Files Scanned**: " ++ toString r.filesScanned,
    "- **Files with Legacy Patterns**: " ++ toString r.filesWithFindings,
    "- **Total Patterns Found**: " ++ toString r.findings.length] ++
  (if r.suppressed = 0 then [] else ["- **Suppressed Matches**: " ++ toString r.suppressed]) ++
  (if r.failedFiles.isEmpty then [] else ["- **Unreadable Files**: " ++ toString r.failedFiles.length]) ++
  ["", "### Patterns by Type", "", "| Pattern Type | Count |", "|--------------|-------|"] ++
  r.byConstruct.map (fun c => "| " ++ c.1 ++ " | " ++ toString c.2 ++ " |") ++
  ["", "### Patterns by Severity", "", "| Severity | Count | Priority |",
    "|----------|-------|----------|"] ++
  r.bySeverity.map (fun c =>
    "| " ++ c.1.name ++ " | " ++ toString c.2 ++ " | " ++ c.1.icon ++ " " ++ c.1.priority ++ " |") ++
  [""]

def contextLines (f : Finding) : List String :=
  ["**Context:**", "```cadence", f.site.context, "```", ""]

/-- Where a finding was made. -/
def locationLine (f : Finding) : String :=
  "- **Location**: Line " ++ toString f.site.line ++ ", Column " ++ toString f.site.column

/-- One line of a finding's description. -/
def itemLine (label text : String) : String := "- **" ++ label ++ "**: " ++ text

def fileItem (o : ReportOptions) (index : Nat) (f : Finding) : List String :=
  ["#### " ++ toString index ++ ". " ++ f.severity.icon ++ " " ++ f.description, "",
    itemLine "Pattern" ("`" ++ f.matched ++ "`"), locationLine f, itemLine "Severity" f.severity.name,
    itemLine "Impact" f.impact.name, itemLine "Suggested Fix" f.suggestedFix, ""] ++
  (if o.includeContext then contextLines f else [])

def severityItem (o : ReportOptions) (index : Nat) (f : Finding) : List String :=
  ["#### " ++ toString index ++ ". " ++ f.description, "", itemLine "File" f.site.file, locationLine f,
    itemLine "Pattern" ("`" ++ f.matched ++ "`"), itemLine "Type" f.construct.name,
    itemLine "Impact" f.impact.name, itemLine "Suggested Fix" f.suggestedFix, ""] ++
  (if o.includeContext then contextLines f else [])

/-- Items numbered from the given number on, one after another. -/
def numbered (item : Nat → Finding → List String) : Nat → List Finding → List String
  | _, [] => []
  | n, f :: rest => item n f ++ numbered item (n + 1) rest

/-- Findings by file, files in ascending order. -/
def byFile (o : ReportOptions) (fs : List Finding) : List String :=
  let files := ((fs.map (·.site.file)).eraseDups).mergeSort fun a b => decide (a ≤ b)
  ["## Detailed Findings (Grouped by File)", ""] ++
  files.flatMap fun file =>
    let own := sortByPlace (fs.filter (·.site.file == file))
    ["### " ++ file, "", "Found " ++ toString own.length ++ " pattern(s) in this file:", ""] ++
      numbered (fileItem o) 1 own

/-- Findings by severity, most urgent first. -/
def bySeverity (o : ReportOptions) (fs : List Finding) : List String :=
  ["## Detailed Findings (Grouped by Severity)", ""] ++
  Severity.ranked.flatMap fun s =>
    match fs.filter (·.severity == s) with
    | [] => []
    | own =>
      ["### " ++ s.icon ++ " " ++ s.heading ++ " (" ++ toString own.length ++ " patterns)", ""] ++
        numbered (severityItem o) 1 own

/-- The recommendation for one severity, if it has findings. -/
def recommendation (r : ScanResult) (s : Severity) : List String :=
  match r.severityCount s with
  | 0 => []
  | count =>
    ["### " ++ s.icon ++ " " ++ s.recommendation.1, "",
      toString count ++ " " ++ s.recommendation.2 ++ ":", ""] ++
      (sortedTallies ((r.findings.filter (·.severity == s)).map (·.construct.name))).map (fun c =>
        "- **" ++ c.1 ++ "**: " ++ toString c.2 ++ " instances") ++ [""]

def nextSteps (r : ScanResult) : List String :=
  if r.findings.isEmpty then [
    "✅ **Congratulations!** Your codebase appears to be fully migrated to Cadence 1.0.", "",
    "Consider adding prevention mechanisms so legacy patterns are not reintroduced:",
    "- Add pre-commit hooks", "- Run `cadence-migrate scan --production` in CI"]
  else [
    "1. **Fix Critical Issues First**: Address all critical patterns immediately",
    "2. **Plan Warning Fixes**: Schedule time to fix warning patterns",
    "3. **Consider Suggestions**: Evaluate suggestion patterns for future improvements",
    "4. **Implement Prevention**: Add mechanisms to prevent legacy patterns from being reintroduced",
    "5. **Re-scan Regularly**: Run this scanner periodically to catch any new legacy patterns"]

def report (r : ScanResult) (o : ReportOptions) (generatedAt : String) : String :=
  "\n".intercalate (
    header r generatedAt ++ statistics r ++
    (if r.findings.isEmpty then []
      else if o.groupByFile then byFile o r.findings else bySeverity o r.findings) ++
    ["## Recommendations", ""] ++ Severity.ranked.flatMap (recommendation r) ++
    ["### Next Steps", ""] ++ nextSteps r) ++ "\n"

end Markdown

/-- A finding as a document value. -/
def Finding.toValue (f : Finding) : Value := .record [
  ("type", .text f.construct.name),
  ("pattern", .text f.matched),
  ("location", .record [("file", .text f.site.file), ("line", .int f.site.line),
    ("column", .int f.site.column), ("context", .text f.site.context)]),
  ("severity", .text f.severity.name),
  ("description", .text f.description),
  ("suggested_fix", .text f.suggestedFix),
  ("impact", .text f.impact.name)]

/-- The fields of a result as document values. -/
def ScanResult.toFields (r : ScanResult) : List (String × Value) := [
  ("total_files_scanned", .int r.filesScanned),
  ("files_with_legacy_patterns", .int r.filesWithFindings),
  ("total_patterns_found", .int r.findings.length),
  ("patterns_by_type", .record (r.byConstruct.map fun c => (c.1, .int c.2))),
  ("patterns_by_severity", .record (r.bySeverity.map fun c => (c.1.name, .int c.2))),
  ("patterns", .list (r.findings.map (·.toValue))),
  ("summary", .text r.summary),
  ("suppressed_count", .int r.suppressed),
  ("failed_files", .list (r.failedFiles.map .text))]

def reportVersion : String := "1.0.0"

/-- A result as a JSON report. -/
def jsonReport (r : ScanResult) (generatedAt : String) : String :=
  Json.pretty (.record (r.toFields ++
    [("generated_at", .text generatedAt), ("version", .text reportVersion)]))

namespace Csv

/-- A field that has to be written between quotes. -/
def needsQuotes (s : List Char) : Bool := s.any fun c => c == ',' || c == '"' || c == '\n'

/-- The inside of a quoted field: a quote is written twice. -/
def doubleQuotes : List Char → List Char
  | [] => []
  | c :: r => if c = '"' then '"' :: '"' :: doubleQuotes r else c :: doubleQuotes r

/-- A field as it is written. -/
def field (s : List Char) : List Char := if needsQuotes s then '"' :: doubleQuotes s ++ ['"'] else s

/-- A row of fields, ended by a newline. -/
def row (fields : List (List Char)) : List Char := Text.join [','] (fields.map field) ++ ['\n']

def header : List String := [
  "File", "Line", "Column", "Pattern", "Type", "Severity", "Impact", "Description", "Suggested Fix",
  "Context"]

def fields (f : Finding) : List String := [
  f.site.file, toString f.site.line, toString f.site.column, f.matched, f.construct.name, f.severity.name,
  f.impact.name, f.description, f.suggestedFix, f.site.context]

/-- The header and one row a finding. -/
def report (r : ScanResult) : String :=
  String.ofList ((header :: r.findings.map fields).flatMap fun fs => row (fs.map (·.toList)))

end Csv

def ScanResult.render (r : ScanResult) (format : ReportFormat) (o : ReportOptions) (generatedAt : String) :
    String :=
  match format with
  | .markdown => Markdown.report r o generatedAt
  | .json => jsonReport r generatedAt
  | .csv => Csv.report r

end CadenceUplift
