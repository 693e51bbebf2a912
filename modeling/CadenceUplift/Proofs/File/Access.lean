import CadenceUplift.File.Access
import CadenceUplift.Proofs.Text.Octets
import Mathlib.Data.List.TakeWhile

namespace CadenceUplift

open Text

namespace FileTree

variable {t : FileTree} {path : String} {real : List String} {content : List UInt8}

/-- Where there are no more steps, there is a directory or nothing. -/
theorem walk_nil_ne_file (onLink : List String → List String → Located) (real real' : List String)
    (content : List UInt8) : t.walk onLink real [] ≠ .found real' (.file content) := by
  unfold walk
  split <;> simp

/-- Steps that ask for a directory at their end lead to no file, if going on behind a link does not. -/
theorem walk_ne_file {onLink : List String → List String → Located}
    (h : ∀ real steps, steps.getLast? = some "." → ∀ real' content, onLink real steps ≠ .found real' (.file content))
    {steps : List String} (hlast : steps.getLast? = some ".") (real real' : List String) (content : List UInt8) :
    t.walk onLink real steps ≠ .found real' (.file content) := by
  induction steps generalizing real with
  | nil => cases hlast
  | cons name rest ih =>
    unfold walk
    split
    next => simp
    next entries _ =>
      by_cases hempty : rest = []
      · subst hempty
        obtain rfl : name = "." := by simpa using hlast
        rw [if_pos rfl]
        exact walk_nil_ne_file onLink real real' content
      · have hrest : rest.getLast? = some "." := by rwa [List.getLast?_cons_of_ne_nil hempty] at hlast
        have hmore : rest.isEmpty = false := by simpa using hempty
        simp only [hmore, Bool.false_eq_true, ↓reduceIte]
        split
        next => exact ih hrest real
        next =>
          split
          next => exact ih hrest _
          next =>
            split
            next => simp
            next =>
              split
              next => simp
              next => simp
              next => exact ih hrest _
              next target _ =>
                refine h _ _ ?_ real' content
                rw [List.getLast?_append, hrest]
                rfl

theorem follow_ne_file (links : Nat) {steps : List String} (hlast : steps.getLast? = some ".")
    (real real' : List String) (content : List UInt8) : t.follow links real steps ≠ .found real' (.file content) := by
  induction links generalizing real steps content real' with
  | zero =>
    unfold follow
    refine walk_ne_file ?_ hlast real real' content
    intro _ _ _ _ _
    simp
  | succ links ih =>
    unfold follow
    refine walk_ne_file ?_ hlast real real' content
    intro real steps hlast real' content
    exact ih hlast real real' content

/-- A path that leads to a file is a path text, and no slash ends it. -/
theorem path_of_file (h : t.locate path = .found real (.file content)) :
    isPathText path = true ∧ path.endsWith "/" = false := by
  unfold locate at h
  split at h
  next => cases h
  next =>
    split at h
    next => cases h
    next htext =>
      split at h
      next => cases h
      next =>
        refine ⟨by simpa using htext, ?_⟩
        by_contra hslash
        refine follow_ne_file maxLinks ?_ _ _ _ h
        rw [steps, if_pos (by simpa using hslash), List.getLast?_concat]

/-- A file that is there can be written. -/
theorem writeFile_of_file (h : t.locate path = .found real (.file content)) (new : List UInt8) :
    t.writeFile path new = .ok (t.setNode real (.file new)) := by
  obtain ⟨htext, hslash⟩ := path_of_file h
  simp [writeFile, htext, hslash, h]

theorem readText_of_file {raw : List Char}
    (h : t.locate path = .found real (.file (encodeUtf8 (String.ofList raw)))) :
    t.readText path = .ok (unifyNewlines raw) := by
  simp only [readText, readFile, h, decodeUtf8_encodeUtf8, String.toList_ofList]

/-- A text without halves is written over a file. -/
theorem writeText_of_file (h : t.locate path = .found real (.file content)) {s : List Char}
    (hs : ∀ c ∈ s, isHalf c = false) :
    t.writeText path (String.ofList s) = .ok (t.setNode real (.file (encodeUtf8 (String.ofList s)))) := by
  have hrun : halfRun? s = none := by
    have hall : s.takeWhile (fun c => !isHalf c) = s :=
      List.takeWhile_eq_self_iff.mpr fun c hc => by simp [hs c hc]
    simp [halfRun?, hall]
  have hencode : encode (String.ofList s) = .ok (encodeUtf8 (String.ofList s)) := by
    rw [encode, String.toList_ofList, hrun]
  rw [writeText, writeFile_of_file h, hencode]
  change (t.writeFile path (encodeUtf8 (String.ofList s))).mapError WriteError.file = _
  rw [writeFile_of_file h]
  rfl

end FileTree

end CadenceUplift
