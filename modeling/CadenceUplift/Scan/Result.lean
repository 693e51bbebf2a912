import CadenceUplift.Legacy.Finding

namespace CadenceUplift

/-- Findings in the order of results: more urgent first, stronger impact first, then by file, line,
column, kind and matched text. -/
def Finding.order (a b : Finding) : Ordering :=
  (compare b.severity.rank a.severity.rank).then <|
    (compare b.impact.rank a.impact.rank).then <|
    (compare a.site.file b.site.file).then <|
    (compare a.site.line b.site.line).then <|
    (compare a.site.column b.site.column).then <|
    (compare a.construct.name b.construct.name).then (compare a.matched b.matched)

def Finding.textOrder (a b : Finding) : Ordering :=
  (compare a.site.line b.site.line).then <|
    (compare a.site.column b.site.column).then (compare a.construct.name b.construct.name)

/-- Sorts findings for a result; findings that the order does not tell apart stay as they come. -/
def inResultOrder (fs : List Finding) : List Finding := fs.mergeSort fun a b => (a.order b).isLE

def sortByPlace (fs : List Finding) : List Finding := fs.mergeSort fun a b => (a.textOrder b).isLE

/-- Adds one to the count of a name, which comes last if it is new. -/
def tally (counts : List (String × Nat)) (name : String) : List (String × Nat) :=
  match counts with
  | [] => [(name, 1)]
  | (n, k) :: rest => if n = name then (n, k + 1) :: rest else (n, k) :: tally rest name

/-- How often each name occurs, in order of first occurrence. -/
def tallies (names : List String) : List (String × Nat) := names.foldl tally []

def sortedTallies (names : List String) : List (String × Nat) :=
  (tallies names).mergeSort fun a b => decide (a.1 ≤ b.1)

def countSeverity (s : Severity) (fs : List Finding) : Nat := (fs.filter (·.severity == s)).length

/-- The result of a scan. -/
structure ScanResult where
  filesScanned : Int
  filesWithFindings : Nat
  byConstruct : List (String × Nat)
  bySeverity : List (Severity × Nat)
  findings : List Finding
  summary : String
  suppressed : Int
  failedFiles : List String
deriving DecidableEq, Repr, Inhabited

/-- The number of findings of a severity that a result counts. -/
def ScanResult.severityCount (r : ScanResult) (s : Severity) : Nat := (r.bySeverity.lookup s).getD 0

def scanSummary (filesScanned : Int) (filesWithFindings : Nat) (fs : List Finding) : String :=
  let line (s : Severity) (lead trail : String) : List String :=
    match countSeverity s fs with
    | 0 => []
    | n => [lead ++ ": " ++ toString n ++ " patterns " ++ trail]
  let head :=
    "Scanned " ++ toString filesScanned ++ " files and found " ++ toString fs.length ++
      " legacy patterns in " ++ toString filesWithFindings ++ " files."
  "\n".intercalate (head ::
    if fs.isEmpty then ["No legacy patterns found! Codebase appears to be fully migrated."]
    else
      line .critical "CRITICAL" "require immediate attention." ++
        line .warning "WARNING" "should be addressed." ++
        line .suggestion "SUGGESTION" "could be improved.")

def buildResult (fs : List Finding) (filesScanned suppressed : Int) (failedFiles : List String) :
    ScanResult :=
  let sorted := inResultOrder fs
  let files := (sorted.map (·.site.file)).eraseDups.length
  { filesScanned := filesScanned
    filesWithFindings := files
    byConstruct := sortedTallies (sorted.map (·.construct.name))
    bySeverity := Severity.ranked.filterMap fun s =>
      match countSeverity s sorted with
      | 0 => none
      | n => some (s, n)
    findings := sorted
    summary := scanSummary filesScanned files sorted
    suppressed := suppressed
    failedFiles := failedFiles }

end CadenceUplift
