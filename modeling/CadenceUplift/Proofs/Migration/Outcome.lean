import CadenceUplift.Migration.Run

namespace CadenceUplift

/-- A template and what it becomes when its uplift is accepted: other parts stay as they are. -/
structure Template.Modernizes [CharacterNames] (r : RuleSet) (t t' : Template) (u : Uplifted) : Prop where
  code : ∃ s, t.code = .text s ∧ r.uplift s.toList = .ok u ∧ t'.code = .text (String.ofList u.text)
  tags_present : .text modernTag ∈ t.tags → t'.tags = t.tags
  tags_absent : .text modernTag ∉ t.tags → t'.tags = t.tags ++ [.text modernTag]
  description : ∃ d, t.description = .text d ∧
    (lowered modernTag <:+: lowered d → t'.description = .text d) ∧
    (¬lowered modernTag <:+: lowered d → t'.description = .text (d ++ modernSuffix))
  others : t' = { t with code := t'.code, tags := t'.tags, description := t'.description }

theorem Value.isNamed_iff {name : String} {v : Value} : v.isNamed name = true ↔ v = .text name := by
  cases v <;> simp [Value.isNamed]

theorem Template.modernTags_present {tags : List Value} (h : .text modernTag ∈ tags) : modernTags tags = tags := by
  have hany : tags.any (·.isNamed modernTag) = true :=
    List.any_eq_true.mpr ⟨_, h, Value.isNamed_iff.mpr rfl⟩
  rw [modernTags, if_pos hany]

theorem Template.modernTags_absent {tags : List Value} (h : .text modernTag ∉ tags) :
    modernTags tags = tags ++ [.text modernTag] := by
  have hany : ¬tags.any (·.isNamed modernTag) = true := by
    intro hany
    obtain ⟨v, hv, hname⟩ := List.any_eq_true.mp hany
    rw [Value.isNamed_iff.mp hname] at hv
    exact h hv
  rw [modernTags, if_neg hany]

theorem Template.markModern_modernizes [CharacterNames] {r : RuleSet} {t t' : Template} {s : String} {u : Uplifted}
    (hcode : t.code = .text s) (hu : r.uplift s.toList = .ok u)
    (h : { t with code := .text (String.ofList u.text) }.markModern = .ok t') : t.Modernizes r t' u := by
  unfold markModern at h
  split at h
  next d hd =>
    cases h
    refine ⟨⟨s, hcode, hu, rfl⟩, modernTags_present, modernTags_absent, ⟨d, hd, ?_, ?_⟩, rfl⟩
    · intro hinfix
      have hhas : Text.hasText (lowered d) (lowered modernTag) = true := Text.hasText_iff.mpr hinfix
      rw [modernDescription, if_pos hhas]
    · intro hinfix
      have hhas : ¬Text.hasText (lowered d) (lowered modernTag) = true := fun hhas =>
        hinfix (Text.hasText_iff.mp hhas)
      rw [modernDescription, if_neg hhas]
  next => cases h

/-- What the migration of a template comes to when it can be processed. -/
inductive Outcome.Of [CharacterNames] (r : RuleSet) (t : Template) : Outcome → Prop
  | skipped {code : List Char} : t.code.blanked = .ok code → isLegacy code = false → Outcome.Of r t (.skipped t)
  | rejected {o : Outcome} {code : List Char} (v : Verdict) : t.code.blanked = .ok code → isLegacy code = true →
      o.source = t → o.migrated = t → o.needed = true → o.success = false → o.verdict = some v → Outcome.Of r t o
  | accepted {o : Outcome} {code : List Char} (u : Uplifted) : t.code.blanked = .ok code → isLegacy code = true →
      o.source = t → o.needed = true → o.success = true → o.substitutions = u.total →
      t.Modernizes r o.migrated u → (r.options.validates = true → (checkMigrated (codeOnly u.text)).valid = true) →
      Outcome.Of r t o

theorem bind_eq_ok {ε α β : Type} {x : Except ε α} {f : α → Except ε β} {b : β} (h : (x >>= f) = .ok b) :
    ∃ a, x = .ok a ∧ f a = .ok b := by
  cases x with
  | error e => cases h
  | ok a => exact ⟨a, rfl, h⟩

theorem mapError_eq_ok {ε ε' α : Type} {x : Except ε α} {f : ε → ε'} {a : α} (h : x.mapError f = .ok a) :
    x = .ok a := by
  cases x with
  | error e => cases h
  | ok b =>
    cases h
    rfl

theorem migrate_cases [CharacterNames] {r : RuleSet} {t : Template} {o : Outcome} (h : migrate r t = .ok o) :
    Outcome.Of r t o := by
  unfold migrate at h
  obtain ⟨code, hcode, hrest⟩ := bind_eq_ok h
  have hblanked := mapError_eq_ok hcode
  split at hrest
  next hlegacy =>
    cases hrest
    exact .skipped hblanked (by simpa using hlegacy)
  next hlegacy =>
    have hlegacy' : isLegacy code = true := by simpa using hlegacy
    split at hrest
    next s hs =>
      obtain ⟨u, hu, hlast⟩ := bind_eq_ok hrest
      have hup := mapError_eq_ok hu
      dsimp only at hlast
      split at hlast
      next v hv =>
        split at hlast
        next hvalid =>
          obtain ⟨t', ht', hdone⟩ := bind_eq_ok hlast
          cases hdone
          refine .accepted u hblanked hlegacy' rfl rfl rfl rfl (Template.markModern_modernizes hs hup ht') ?_
          intro hvalidates
          rw [if_pos hvalidates] at hv
          rwa [Option.some.inj hv]
        next =>
          cases hlast
          exact .rejected v hblanked hlegacy' rfl rfl rfl rfl hv
      next hv =>
        obtain ⟨t', ht', hdone⟩ := bind_eq_ok hlast
        cases hdone
        refine .accepted u hblanked hlegacy' rfl rfl rfl rfl (Template.markModern_modernizes hs hup ht') ?_
        intro hvalidates
        rw [if_pos hvalidates] at hv
        cases hv
    next => cases hrest

theorem migrate_skips [CharacterNames] {r : RuleSet} {t : Template} {code : List Char}
    (hcode : t.code.blanked = .ok code)
    (h : isLegacy code = false) : migrate r t = .ok (.skipped t) := by
  unfold migrate
  rw [hcode]
  change (if (!isLegacy code) = true then _ else _) = _
  rw [h]
  rfl

section Attempt

variable [CharacterNames] (r : RuleSet) (t : Template)

theorem attempt_error {e : MigrationFault} (h : migrate r t = .error e) :
    attempt r t = (.failed t e.message, { errors := [.transformation t.label "transform_all" e.message] }) := by
  unfold attempt
  rw [h]

theorem attempt_ok {o : Outcome} (h : migrate r t = .ok o) : (attempt r t).1 = o := by
  unfold attempt
  rw [h]

/-- An attempt fails, or comes to what a migration can come to. -/
theorem attempt_cases : (∃ e, (attempt r t).1 = .failed t e) ∨ Outcome.Of r t (attempt r t).1 := by
  cases h : migrate r t with
  | error e =>
    rw [attempt_error r t h]
    exact .inl ⟨_, rfl⟩
  | ok o =>
    rw [attempt_ok r t h]
    exact .inr (migrate_cases h)

theorem attempt_source : (attempt r t).1.source = t := by
  obtain ⟨e, he⟩ | hof := attempt_cases r t
  · rw [he]
    rfl
  · generalize (attempt r t).1 = o at hof
    cases hof with
    | skipped => rfl
    | rejected _ _ _ hsource => exact hsource
    | accepted _ _ _ hsource => exact hsource

/-- Unless its uplift is accepted, a template stays as it is. -/
theorem attempt_migrated (h : (attempt r t).1.accepted = false) : (attempt r t).1.migrated = t := by
  obtain ⟨e, he⟩ | hof := attempt_cases r t
  · rw [he]
    rfl
  · generalize (attempt r t).1 = o at hof h
    cases hof with
    | skipped => rfl
    | rejected _ _ _ _ hmigrated => exact hmigrated
    | accepted _ _ _ _ hneeded hsuccess =>
      rw [Outcome.accepted, hneeded, hsuccess] at h
      cases h

theorem attempt_accepted (h : (attempt r t).1.accepted = true) :
    ∃ u, (attempt r t).1.substitutions = u.total ∧ t.Modernizes r (attempt r t).1.migrated u := by
  obtain ⟨e, he⟩ | hof := attempt_cases r t
  · rw [he] at h
    cases h
  · generalize (attempt r t).1 = o at hof h
    cases hof with
    | skipped => cases h
    | rejected _ _ _ _ _ hneeded hsuccess =>
      rw [Outcome.accepted, hneeded, hsuccess] at h
      cases h
    | accepted u _ _ _ _ _ htotal hmodern => exact ⟨u, htotal, hmodern⟩

/-- A text needs migration if it is legacy code, whatever comes of it. -/
theorem attempt_needed {s : String} (hs : t.code = .text s) :
    (attempt r t).1.needed = isLegacy (codeOnly s.toList) := by
  have hblanked : t.code.blanked = .ok (codeOnly s.toList) := by
    rw [hs]
    rfl
  cases hlegacy : isLegacy (codeOnly s.toList) with
  | false =>
    rw [attempt_ok r t (migrate_skips hblanked hlegacy)]
    rfl
  | true =>
    obtain ⟨e, he⟩ | hof := attempt_cases r t
    · rw [he]
      rfl
    · generalize (attempt r t).1 = o at hof
      cases hof with
      | skipped hcode hmodern =>
        rw [hblanked] at hcode
        cases hcode
        rw [hlegacy] at hmodern
        cases hmodern
      | rejected _ _ _ _ _ hneeded => exact hneeded
      | accepted _ _ _ _ hneeded => exact hneeded

/-- A template that needed migration and did not get it leaves one error, any other leaves none. -/
theorem attempt_errors :
    (attempt r t).2.errors.length = if (attempt r t).1.needed && !(attempt r t).1.success then 1 else 0 := by
  cases h : migrate r t with
  | error e =>
    rw [attempt_error r t h]
    rfl
  | ok o =>
    have hof := migrate_cases h
    rw [attempt_ok r t h]
    unfold attempt
    rw [h]
    cases hof with
    | skipped => rfl
    | rejected v _ _ _ _ hneeded hsuccess hv => simp [hneeded, hsuccess, hv]
    | accepted u _ _ _ _ hsuccess =>
      cases hv : o.verdict with
      | none => simp [hsuccess, hv]
      | some v => simp [hsuccess, hv]

end Attempt

end CadenceUplift
