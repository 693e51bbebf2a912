import CadenceUplift.Proofs.Migration.Stability
import CadenceUplift.Proofs.Scan.Location
import CadenceUplift.Proofs.Uplift.Soundness
import CadenceUplift.Scan.Plan

namespace CadenceUplift

open Text Pattern

section Blanked

variable {t : List Char}

/-- Blanking makes no word characters. -/
theorem isWord_codeOnly {i : Nat} (h : t[i]?.any isWord = false) : (codeOnly t)[i]?.any isWord = false := by
  cases hget : (codeOnly t)[i]? with
  | none => rfl
  | some c =>
    cases hc : isWord c with
    | false => exact hc
    | true => rwa [← getElem?_codeOnly (not_covered_of_word hget hc), hget] at h

/-- The text in front of a character does not end in a word after blanking, if it did not before. -/
theorem endsWord_take_codeOnly {k : Nat} (hk : k < t.length) (hk' : k < (codeOnly t).length)
    (h : endsWord (t.take k) = false) : endsWord ((codeOnly t).take k) = false := by
  cases k with
  | zero => rfl
  | succ k =>
    rw [endsWord_take_succ (by omega)] at h ⊢
    exact isWord_codeOnly h

theorem startsWord_drop {s : List Char} {k : Nat} : startsWord (s.drop k) = s[k]?.any isWord := by
  rw [startsWord, List.head?_drop]

/-- In a stretch where nothing can open a literal, there is none unless at its first character. -/
theorem not_covered_of_open {k : Nat} {m : List Char} (hget : ∀ i < m.length, t[k + i]? = m[i]?)
    (hfirst : ¬Covered k (literals t)) (hopen : ∀ c ∈ m, c ≠ '/' ∧ c ≠ '"') {i : Nat} (hi : i < m.length) :
    ¬Covered (k + i) (literals t) := by
  rintro ⟨l, hl, hstart, hstop⟩
  have hlater : k < l.start := by
    by_contra hle
    exact hfirst ⟨l, hl, by omega, by omega⟩
  obtain ⟨n, hn⟩ := Nat.exists_eq_add_of_lt hlater
  have hat : t[l.start]? = m[n + 1]? := by
    rw [hn, Nat.add_assoc]
    exact hget _ (by omega)
  rcases ((lexed_literals t).spelled l hl).opensAt with hquote | ⟨hslash, _⟩
  · rw [hat] at hquote
    exact (hopen _ (List.mem_of_getElem? hquote)).2 rfl
  · rw [hat] at hslash
    exact (hopen _ (List.mem_of_getElem? hslash)).1 rfl

/-- Pieces of code that end in no blanks are pieces of the blanked text. -/
theorem pieces_codeOnly {pre u : List Char} (ht : t = pre ++ u) {x r : List Piece} (hx : pieces u = x ++ r)
    (hplain : ∀ y ∈ x, Plain y) {y : Piece} (hlast : x.getLast? = some y) (hkind : y.kind ≠ .blank)
    (hpre : endsWord pre = false) (hfree : ¬Covered pre.length (literals t)) :
    ∃ pre' u' r', codeOnly t = pre' ++ u' ∧ endsWord pre' = false ∧ pieces u' = x ++ r' := by
  obtain ⟨rfl, hdiv⟩ := pieces_eq_iff.mp hx
  obtain ⟨hdivx, _, _⟩ := divided_append.mp hdiv
  rw [textOf_append] at ht
  have hget {i : Nat} (hi : i < (textOf x).length) : t[pre.length + i]? = (textOf x)[i]? := by
    rw [ht, List.getElem?_append_right (by omega), Nat.add_sub_cancel_left, List.getElem?_append_left hi]
  have hopen := opens_not_mem_of_plain hplain hdivx.valid
  have hsame {i : Nat} (hi : i < (textOf x).length) : (codeOnly t)[pre.length + i]? = (textOf x)[i]? := by
    rw [getElem?_codeOnly (not_covered_of_open (fun i hi => hget hi) hfree hopen hi), hget hi]
  have hsplit := eq_take_append fun i hi => hsame (i := i) hi
  obtain ⟨xs, rfl⟩ := List.getLast?_eq_some_iff.mp hlast
  have hpos : 0 < (textOf (xs ++ [y])).length := by
    have hne := (hdivx.valid y (by simp)).text_ne_nil
    have hlen := List.length_pos_iff.mpr hne
    rw [textOf_append, List.length_append, textOf_cons, List.length_append]
    omega
  refine ⟨_, _, pieces ((codeOnly t).drop (pre.length + (textOf (xs ++ [y])).length)), hsplit, ?_, ?_⟩
  · have hfirst : t[pre.length]? = some (textOf (xs ++ [y]))[0] := (hget hpos).trans (List.getElem?_eq_getElem hpos)
    have hfirst' : (codeOnly t)[pre.length]? = some (textOf (xs ++ [y]))[0] :=
      (hsame hpos).trans (List.getElem?_eq_getElem hpos)
    refine endsWord_take_codeOnly (List.getElem?_eq_some_iff.mp hfirst).1 (List.getElem?_eq_some_iff.mp hfirst').1 ?_
    rwa [ht, List.take_left]
  · refine pieces_textOf_append hdivx ?_
    intro z hz
    obtain rfl : y = z := by simpa using hz
    cases y with
    | blank b => exact absurd rfl hkind
    | symbol c => exact fun _ _ _ => rfl
    | word w =>
      have hbehind : startsWord (textOf r) = false := by
        rw [List.append_assoc] at hdiv
        exact (divided_append.mp hdiv).2.1.startsWord_tail
      refine apart_word_pieces ?_ w
      have hdrop : t.drop (pre.length + (textOf (xs ++ [.word w])).length) = textOf r := by
        rw [ht, ← List.append_assoc, ← List.length_append, List.drop_left]
      rw [← hdrop, startsWord_drop] at hbehind
      rw [startsWord_drop]
      exact isWord_codeOnly hbehind

end Blanked

section Detectors

variable {t : List Char}

/-- What the pattern reads is also read by the pattern of an outdated construct. -/
def ReadsOutdated (p : Pattern) : Prop :=
  ∃ q ∈ Legacy.outdated, ∃ At At' call, Reads p At ∧ Reads q At' ∧ ReadsTarget At' call ∧ ∀ m c, At m c → At' m c

theorem readsOutdated_of_mem {p : Pattern} (hp : p ∈ Legacy.outdated) : ReadsOutdated p := by
  obtain ⟨At, call, hR, hT, _⟩ := outdated_reads p hp
  exact ⟨p, hp, At, At, call, hR, hR, hT, fun _ _ h => h⟩

theorem readsOutdated_storage {a : AccountMember} (ha : a.isCall = true) : ReadsOutdated (Target.member a).pattern := by
  refine ⟨_, by simp [Legacy.outdated], _, _, _, (Target.rewrites (ε := Unit) (.member a)).toReads, storage_reads,
    storage_readsTarget, ?_⟩
  rintro m c ⟨w, hw, hm, hc⟩
  have hname : w = a.name := List.mem_singleton.mp hw
  refine ⟨w, ?_, hm, by simpa [ha] using hc⟩
  rw [hname]
  cases a with
  | getCapability => cases ha
  | save | load | borrow | copy => decide

/-- A match in code of what an outdated construct looks like is one in the blanked text. -/
theorem ReadsOutdated.isLegacy {p : Pattern} (h : ReadsOutdated p) {M : Match} (hM : M ∈ p.allMatches t.toArray)
    (hfree : ¬Covered M.start (literals t)) : isLegacy (codeOnly t) = true := by
  obtain ⟨q, hq, At, At', call, hR, hR', hT, hsub⟩ := h
  obtain ⟨pre, u, hsplit, hlength, hmatch⟩ := exists_split_of_mem_allMatches hR.regular hR.advances hM
  rw [← hlength] at hfree
  obtain ⟨hends, m, c, r, hu, hat, _⟩ := hR.sound hmatch
  have hat' := hsub m c hat
  obtain ⟨target, m', c', htarget, hsame⟩ := hT.target hat'
  obtain ⟨x, z, hxz, hkind, _⟩ := hT.last hat'
  have hlast : (m ++ c).getLast? = some z := by rw [hxz, List.getLast?_concat]
  have hplain := Target.at_plain htarget
  rw [← List.append_assoc] at hu
  rw [← hsame] at hplain
  obtain ⟨pre', u', r', hcode, hends', hu'⟩ := pieces_codeOnly hsplit hu hplain hlast hkind hends hfree
  rw [List.append_assoc] at hu'
  refine List.any_eq_true.mpr ⟨q, hq, occursIn_iff.mpr ⟨pre'.length, ?_, ?_⟩⟩
  · rw [hcode, List.length_append]
    omega
  · rw [hcode]
    exact hR'.complete hends' hu' hat'

/-- What a finding of a link says. -/
def linkFound : String := "Legacy account.link() found"

/-- Every detector but those of links, getters and imports is after an outdated construct. -/
theorem detectors_cases : ∀ d ∈ Legacy.detectors, ReadsOutdated d.pattern ∨
    d.construct = .storageApi ∧ d.description = linkFound ∨
    d.severity = .suggestion ∧ (d.construct = .functionSignature ∨ d.construct = .importStatement) := by
  intro d hd
  simp only [Legacy.detectors, List.mem_cons, List.not_mem_nil, or_false] at hd
  rcases hd with rfl | rfl | rfl | rfl | rfl | rfl | rfl | rfl | rfl | rfl | rfl
  · exact .inl (readsOutdated_of_mem (by simp [Legacy.outdated]))
  · exact .inl (readsOutdated_of_mem (by simp [Legacy.outdated]))
  · exact .inl (readsOutdated_storage (a := .save) rfl)
  · exact .inr (.inl ⟨rfl, rfl⟩)
  · exact .inl (readsOutdated_storage (a := .borrow) rfl)
  · exact .inl (readsOutdated_of_mem (by simp [Legacy.outdated]))
  · exact .inl (readsOutdated_storage (a := .load) rfl)
  · exact .inl (readsOutdated_storage (a := .copy) rfl)
  · exact .inl (readsOutdated_of_mem (by simp [Legacy.outdated]))
  · exact .inr (.inr ⟨rfl, .inl rfl⟩)
  · exact .inr (.inr ⟨rfl, .inr rfl⟩)

end Detectors

section Scans

variable {s : List Char} {policy : Policy} {path : String} {d : Legacy.Detector} {M : Match}

/-- In text that needs no migration, a scan finds links and suggestions only; if it drops what is not production code,
the suggestions are on getters and imports. -/
theorem scanText_modern (h : isLegacy (codeOnly s) = false) :
    ∀ f ∈ (scanText policy s path (some true)).findings, f.description = linkFound ∧ f.construct = .storageApi ∨
      f.severity = .suggestion ∧
        (policy = .discard → f.construct = .functionSignature ∨ f.construct = .importStatement) := by
  intro f hf
  obtain ⟨d, hd, M, hM, rfl, hpolicy⟩ := exists_of_mem_scanText hf
  cases hsetting : (Subject.ofText s path (some true)).setting M with
  | some place =>
    right
    simp only [Subject.sighting, hsetting]
    refine ⟨rfl, ?_⟩
    intro hdiscard
    rw [hpolicy hdiscard] at hsetting
    cases hsetting
  | none =>
    simp only [Subject.sighting, hsetting]
    rcases detectors_cases d hd with houtdated | ⟨hconstruct, hlink⟩ | ⟨hseverity, hconstruct⟩
    · rw [houtdated.isLegacy hM ((setting_eq_none_iff rfl).mp hsetting).2] at h
      cases h
    · exact .inl ⟨hlink, hconstruct⟩
    · exact .inr ⟨hseverity, fun _ => hconstruct⟩

theorem scanCorpus_text (sc : ScanPlan) {t : Template} {code : String} (hcode : t.code = .text code) :
    ∃ result, sc.scanCorpus [t] = .ok result ∧
      ∀ f ∈ result.findings, f ∈ (scanText sc.policy code.toList t.label (some true)).findings := by
  have hone : sc.scanOne t = .ok (scanText sc.policy code.toList t.label (some true)) := by
    rw [ScanPlan.scanOne, hcode]
  refine ⟨_, by rw [ScanPlan.scanCorpus, List.mapM_cons, hone]; rfl, ?_⟩
  intro f hf
  have hmem := (List.mergeSort_perm _ _).mem_iff.mp hf
  simpa using hmem

theorem Outcome.Of.text [CharacterNames] {r : RuleSet} {t : Template} {o : Outcome} (h : Outcome.Of r t o)
    (htext : t.code.isText = true) : ∃ code, o.migrated.code = .text code := by
  have hown : ∃ code, t.code = .text code := by
    cases hcode : t.code with
    | text code => exact ⟨code, rfl⟩
    | _ => rw [hcode] at htext; cases htext
  cases h with
  | skipped => exact hown
  | rejected _ _ _ _ hkept => rwa [hkept]
  | accepted _ _ _ _ _ _ _ hmodern =>
    obtain ⟨_, _, _, hcode⟩ := hmodern.code
    exact ⟨_, hcode⟩

theorem text_of_scanCorpus {sc : ScanPlan} {t : Template} {result : ScanResult} (h : sc.scanCorpus [t] = .ok result) :
    ∃ code, t.code = .text code := by
  cases hcode : t.code with
  | text code => exact ⟨code, rfl⟩
  | _ =>
    rw [ScanPlan.scanCorpus, List.mapM_cons, ScanPlan.scanOne, hcode] at h
    cases h

end Scans

/-- With a rule set that checks what it uplifts, whatever it made of a template that it reports as a success: a scan of
the migrated template has no critical finding but links, and if it drops what is not production code, no finding of
public keywords, of conformance lists or of storage calls other than links. -/
theorem migrated_scans_clean [CharacterNames] {r : RuleSet} (hvalidates : r.options.validates = true)
    {t : Template} {o : Outcome}
    (h : migrate r t = .ok o) (hsuccess : o.success = true) (sc : ScanPlan) :
    (t.code.isText = true → ∃ result, sc.scanCorpus [o.migrated] = .ok result) ∧
      ∀ result, sc.scanCorpus [o.migrated] = .ok result →
        (∀ f ∈ result.findings, f.severity = .critical → f.description = linkFound) ∧
        (sc.policy = .discard → ∀ f ∈ result.findings, f.construct ≠ .pubKeyword ∧
          f.construct ≠ .interfaceConformance ∧ (f.construct = .storageApi → f.description = linkFound)) := by
  have hof := migrate_cases h
  obtain ⟨blanked, hblanked, hmodern⟩ := hof.modern hvalidates hsuccess
  constructor
  · intro htext
    obtain ⟨code, hcode⟩ := hof.text htext
    obtain ⟨result, hresult, _⟩ := scanCorpus_text sc hcode
    exact ⟨result, hresult⟩
  · intro result hresult
    obtain ⟨code, hcode⟩ := text_of_scanCorpus hresult
    obtain ⟨_, hresult', hfindings⟩ := scanCorpus_text sc hcode
    cases hresult.symm.trans hresult'
    rw [hcode] at hblanked
    cases hblanked
    have hfound f hf := scanText_modern hmodern f (hfindings f hf)
    constructor
    · intro f hf hcritical
      rcases hfound f hf with ⟨hlink, _⟩ | ⟨hsuggestion, _⟩
      · exact hlink
      · rw [hsuggestion] at hcritical
        cases hcritical
    · intro hdiscard f hf
      rcases hfound f hf with ⟨hlink, hconstruct⟩ | ⟨_, hothers⟩
      · simp [hconstruct, hlink]
      · rcases hothers hdiscard with hconstruct | hconstruct <;> simp [hconstruct]

/-- A caller's own rule set, which deletes public keywords. -/
def deletePub : RuleSet := { rules := [.make "pub " "" "Delete pub" .accessModifier] }

theorem migrated_scans_clean_links :
    ∃ o, deletePub.options.validates = true ∧
      migrate deletePub (.sample "a" "pub let a = account.link<T>(b) // pub let" "") = .ok o ∧ o.success = true ∧
      ∃ result, ({ policy := .discard } : ScanPlan).scanCorpus [o.migrated] = .ok result ∧
        (∀ f ∈ result.findings, f.severity = .critical → f.description = linkFound) ∧
        ∀ f ∈ result.findings, f.construct ≠ .pubKeyword ∧ f.construct ≠ .interfaceConformance ∧
          (f.construct = .storageApi → f.description = linkFound) := by
  have hmigrates : (migrate deletePub (.sample "a" "pub let a = account.link<T>(b) // pub let" "")).toOption.map
      (·.success) = some true := by decide +kernel
  cases h : migrate deletePub (.sample "a" "pub let a = account.link<T>(b) // pub let" "") with
  | error e =>
    rw [h] at hmigrates
    cases hmigrates
  | ok o =>
    rw [h] at hmigrates
    have hsuccess : o.success = true := Option.some.inj hmigrates
    obtain ⟨hends, hclean⟩ := migrated_scans_clean (r := deletePub) rfl h hsuccess { policy := .discard }
    obtain ⟨result, hresult⟩ := hends rfl
    obtain ⟨hcritical, hdiscard⟩ := hclean result hresult
    exact ⟨o, rfl, rfl, hsuccess, result, hresult, hcritical, hdiscard rfl⟩

end CadenceUplift
