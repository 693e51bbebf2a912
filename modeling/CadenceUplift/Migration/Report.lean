import CadenceUplift.Migration.Run

namespace CadenceUplift

namespace RunResult

/-- A run in one or two sentences. -/
def summary (r : RunResult) : String :=
  let s := r.statistics
  if r.success then
    "Migration completed successfully. Processed " ++ toString s.processed ++ " templates, applied " ++
      toString s.transformations ++ " transformations, migrated " ++ toString s.linesMigrated ++
      " lines of code."
  else
    "Migration completed with " ++ toString r.errors.length ++ " errors and " ++
      toString r.warnings.length ++ " warnings. " ++ toString s.successful ++
      " templates migrated successfully, " ++ toString s.failed ++ " templates failed."

def errorCount (r : RunResult) (category : String) : Nat :=
  (r.errors.filter (·.category == category)).length

/-- What to do after a run. -/
def recommendations (r : RunResult) : List String :=
  let counted (category text : String) : List String :=
    match r.errorCount category with
    | 0 => []
    | n => [toString n ++ text]
  (if r.errors.isEmpty then []
    else
      "Review and fix migration errors before proceeding" ::
        (counted "syntax" " syntax errors found - check for complex patterns requiring manual intervention" ++
          counted "transformation" " transformation errors found - review transformation rules" ++
          counted "validation"
            " templates failed validation after rewriting - migrate them manually")) ++
    (if r.warnings.isEmpty then [] else ["Review migration warnings for potential improvements"]) ++
    (if r.statistics.processed = 0 then ["No templates were processed - verify the template source"] else [])

/-- The section on one outcome; templates that were left alone have none. -/
def outcomeLines (o : Outcome) : List String :=
  if !o.needed then []
  else
    let applied := ", ".intercalate o.applied
    ["### " ++ o.source.name.display ++ " (" ++ o.source.id ++ ")",
      "- **Category:** " ++ o.source.category.display,
      "- **Status:** " ++ (if o.success then "Success" else "Failed"),
      "- **Transformations:** " ++ (if applied.isEmpty then "None" else applied)] ++
    (match o.error with
      | some e => if e.isEmpty then [] else ["- **Errors:** " ++ e]
      | none => []) ++
    (match o.verdict with
      | some v => if v.warnings.isEmpty then [] else ["- **Warnings:** " ++ ", ".intercalate v.warnings]
      | none => []) ++ [""]

def markdown (r : RunResult) (generatedAt : String) : String :=
  let s := r.statistics
  "\n".intercalate (
    ["# Template Migration Report", "", "**Generated:** " ++ generatedAt, "", "## Summary",
      "- Total templates processed: " ++ toString s.processed,
      "- Already modern (skipped): " ++ toString s.skipped,
      "- Successful migrations: " ++ toString s.successful,
      "- Failed migrations: " ++ toString s.failed,
      "- Total transformations applied: " ++ toString s.transformations,
      "- Lines of code migrated: " ++ toString s.linesMigrated, "", "## Migration Results", ""] ++
    r.outcomes.flatMap outcomeLines ++
    (if r.errors.isEmpty then []
      else "## Errors" :: r.errors.map (fun e => "- " ++ e.file ++ ": " ++ e.message) ++ [""]) ++
    (if r.warnings.isEmpty then []
      else "## Warnings" :: r.warnings.map (fun w => "- " ++ w.file ++ ": " ++ w.message) ++ [""]))

end RunResult

end CadenceUplift
