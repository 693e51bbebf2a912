import CadenceUplift.Scan.Report

namespace CadenceUplift.Csv

/-- What stands between the quotes of a field: a quote is written twice, all else as it is. -/
inductive Inside : List Char → List Char → Prop
  | nil : Inside [] []
  | quote {s text : List Char} : Inside s text → Inside ('"' :: s) ('"' :: '"' :: text)
  | other {c : Char} {s text : List Char} : c ≠ '"' → Inside s text → Inside (c :: s) (c :: text)

/-- A field is written as it is if nothing in it has a meaning, and between quotes in any case. -/
inductive FieldText : List Char → List Char → Prop
  | plain {s : List Char} : (∀ c ∈ s, c ≠ ',' ∧ c ≠ '"' ∧ c ≠ '\n') → FieldText s s
  | quoted {s text : List Char} : Inside s text → FieldText s ('"' :: text ++ ['"'])

/-- A row is written as its fields, with commas between them and a newline behind the last. -/
inductive RowText : List (List Char) → List Char → Prop
  | last {s text : List Char} : FieldText s text → RowText [s] (text ++ ['\n'])
  | cons {s text rest : List Char} {fields : List (List Char)} : FieldText s text → RowText fields rest →
      RowText (s :: fields) (text ++ ',' :: rest)

/-- A table is written as its rows, one after another. -/
inductive TableText : List (List (List Char)) → List Char → Prop
  | nil : TableText [] []
  | cons {fields : List (List Char)} {text rest : List Char} {rows : List (List (List Char))} : RowText fields text →
      TableText rows rest → TableText (fields :: rows) (text ++ rest)

/-- Where in a field a reader is, with what it has read of the field. -/
inductive Place where
  /-- In a field without quotes, or in front of any field. -/
  | plain (text : List Char)
  | quoted (text : List Char)
  /-- Behind a quote in a quoted field: it ends the field or is the first of two. -/
  | closed (text : List Char)

/-- What a reader has read: some rows, some fields of the next one, and part of a field. -/
structure Reading where
  place : Place := .plain []
  fields : List (List Char) := []
  rows : List (List (List Char)) := []

namespace Reading

/-- Ends a field at a comma or a newline. -/
def endField (r : Reading) (text : List Char) (c : Char) : Option Reading :=
  if c = ',' then some { r with place := .plain [], fields := r.fields ++ [text] }
  else if c = '\n' then some { rows := r.rows ++ [r.fields ++ [text]] }
  else none

/-- Reads a character. -/
def step (r : Reading) (c : Char) : Option Reading :=
  match r.place with
  | .plain text =>
    if c = '"' then if text.isEmpty then some { r with place := .quoted [] } else none
    else (r.endField text c).or (some { r with place := .plain (text ++ [c]) })
  | .quoted text => some { r with place := if c = '"' then .closed text else .quoted (text ++ [c]) }
  | .closed text => if c = '"' then some { r with place := .quoted (text ++ [c]) } else r.endField text c

end Reading

/-- Reads a table; a text that ends within a row is none. -/
def read (s : String) : Option (List (List String)) :=
  match s.toList.foldlM Reading.step {} with
  | some { place := .plain [], fields := [], rows } => some (rows.map (·.map String.ofList))
  | _ => none

section Read

variable {s text : List Char} {fields : List (List Char)} {rows : List (List (List Char))} (r : Reading)

theorem foldlM_inside (h : Inside s text) (before : List Char) :
    text.foldlM Reading.step { r with place := .quoted before } = some { r with place := .quoted (before ++ s) } := by
  induction h generalizing before with
  | nil => simp
  | quote _ ih => simpa [Reading.step] using ih (before ++ ['"'])
  | @other c s text hc _ ih => simpa [Reading.step, hc] using ih (before ++ [c])

theorem foldlM_plain (h : ∀ c ∈ s, c ≠ ',' ∧ c ≠ '"' ∧ c ≠ '\n') (before : List Char) :
    s.foldlM Reading.step { r with place := .plain before } = some { r with place := .plain (before ++ s) } := by
  induction s generalizing before with
  | nil => simp
  | cons c s ih =>
    obtain ⟨⟨hcomma, hquote, hnewline⟩, hs⟩ := List.forall_mem_cons.mp h
    simpa [Reading.step, Reading.endField, hcomma, hquote, hnewline] using ih hs (before ++ [c])

/-- A comma or a newline behind the text of a field ends the field. -/
theorem foldlM_field (h : FieldText s text) {c : Char} (hc : c = ',' ∨ c = '\n') :
    (text ++ [c]).foldlM Reading.step { r with place := .plain [] } = r.endField s c := by
  rw [List.foldlM_append]
  cases h with
  | plain hs =>
    rw [foldlM_plain r hs]
    rcases hc with rfl | rfl <;> simp [Reading.step, Reading.endField]
  | quoted h =>
    have hopen : Reading.step { r with place := .plain [] } '"' = some { r with place := .quoted [] } := by
      simp [Reading.step]
    have hclose : Reading.step { r with place := .quoted s } '"' = some { r with place := .closed s } := by
      simp [Reading.step]
    rw [List.cons_append, List.foldlM_cons, hopen, Option.bind_eq_bind, Option.bind_some, List.foldlM_append,
      foldlM_inside r h, List.nil_append]
    simp only [Option.bind_eq_bind, Option.bind_some, List.foldlM_cons, List.foldlM_nil, hclose]
    rcases hc with rfl | rfl <;> simp [Reading.step, Reading.endField]

theorem foldlM_row (h : RowText fields text) (rows : List (List (List Char))) (before : List (List Char)) :
    text.foldlM Reading.step { fields := before, rows := rows } = some { rows := rows ++ [before ++ fields] } := by
  induction h generalizing before with
  | last h => exact foldlM_field { fields := before, rows := rows } h (.inr rfl)
  | @cons s text rest fields h _ ih =>
    have hfield : (text ++ [',']).foldlM Reading.step { fields := before, rows := rows } =
        some { fields := before ++ [s], rows := rows } := foldlM_field { fields := before, rows := rows } h (.inl rfl)
    have hrest := ih (before ++ [s])
    rw [List.append_assoc, List.singleton_append] at hrest
    rw [List.append_cons, List.foldlM_append, hfield, Option.bind_eq_bind, Option.bind_some, hrest]

theorem foldlM_table (h : TableText rows text) (before : List (List (List Char))) :
    text.foldlM Reading.step { rows := before } = some { rows := before ++ rows } := by
  induction h generalizing before with
  | nil => simp
  | @cons fields text rest rows hrow _ ih =>
    have hrest := ih (before ++ [fields])
    rw [List.append_assoc, List.singleton_append] at hrest
    rw [List.foldlM_append, foldlM_row hrow, List.nil_append, Option.bind_eq_bind, Option.bind_some, hrest]

end Read

/-- A text is that of a table. -/
def Writes (rows : List (List String)) (s : String) : Prop := TableText (rows.map (·.map String.toList)) s.toList

/-- What has been written as a table is read back. -/
theorem read_of_writes {rows : List (List String)} {s : String} (h : Writes rows s) : read s = some rows := by
  rw [read, foldlM_table h []]
  simp [Function.comp_def]

example : read "a,\"b,\"\"\n\"\n\"c\",\n" = some [["a", "b,\"\n"], ["c", ""]] := by decide +kernel

section Report

theorem inside_doubleQuotes (s : List Char) : Inside s (doubleQuotes s) := by
  induction s with
  | nil => exact .nil
  | cons c s ih =>
    by_cases hc : c = '"'
    · rw [doubleQuotes, if_pos hc, hc]
      exact .quote ih
    · rw [doubleQuotes, if_neg hc]
      exact .other hc ih

theorem fieldText_field (s : List Char) : FieldText s (field s) := by
  rw [field]
  split
  next => exact .quoted (inside_doubleQuotes s)
  next h =>
    refine .plain ?_
    simpa [needsQuotes, and_assoc] using h

theorem row_cons (s s' : List Char) (fields : List (List Char)) :
    row (s :: s' :: fields) = field s ++ ',' :: row (s' :: fields) := by
  simp [row, Text.join]

theorem rowText_row {fields : List (List Char)} (hne : fields ≠ []) : RowText fields (row fields) := by
  induction fields with
  | nil => exact absurd rfl hne
  | cons s fields ih =>
    cases fields with
    | nil => exact .last (fieldText_field s)
    | cons s' fields =>
      rw [row_cons]
      exact .cons (fieldText_field s) (ih (List.cons_ne_nil s' fields))

theorem tableText_rows {rows : List (List (List Char))} (hne : ∀ fields ∈ rows, fields ≠ []) :
    TableText rows (rows.flatMap row) := by
  induction rows with
  | nil => exact .nil
  | cons fields rows ih =>
    obtain ⟨hfields, hrows⟩ := List.forall_mem_cons.mp hne
    exact .cons (rowText_row hfields) (ih hrows)

end Report

/-- A report is the text of one table and no other: the names of the columns, and then a row for each finding, in order,
of its file, line, column, matched text, kind, severity, impact, description, suggested fix and context. The reader gives
this table. -/
theorem read_report (r : ScanResult) :
    let rows := ["File", "Line", "Column", "Pattern", "Type", "Severity", "Impact", "Description", "Suggested Fix",
      "Context"] :: r.findings.map fun f =>
        [f.site.file, toString f.site.line, toString f.site.column, f.matched, f.construct.name, f.severity.name,
          f.impact.name, f.description, f.suggestedFix, f.site.context]
    read (report r) = some rows ∧ ∀ table, Writes table (report r) ↔ table = rows := by
  intro rows
  have hne : ∀ fields ∈ rows.map (·.map String.toList), fields ≠ [] := by
    simp [rows]
  have hwrites : Writes rows (report r) := by
    rw [Writes, report, String.toList_ofList, ← List.flatMap_map]
    exact tableText_rows hne
  refine ⟨read_of_writes hwrites, fun table => ⟨fun h => ?_, fun h => h ▸ hwrites⟩⟩
  exact Option.some.inj ((read_of_writes h).symm.trans (read_of_writes hwrites))

end CadenceUplift.Csv
