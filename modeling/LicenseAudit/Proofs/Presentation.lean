import LicenseAudit.Proofs.Effects

/-!
# How a report is shown

The format of a report, what it shows and where it goes are options of a check that come into play
when the check has found its report. Two checks that differ in nothing else run side by side up to
that point, and what they conclude from the report is the same. An output file may well be one that
the check reads: it is written when everything has been read.

Results:
1. `check_side_by_side`: two checks fail alike, or they show the same report.
2. `shown_showReport`: a report is shown on standard output, or in the file that it goes to.
3. `check_conclusion`: how a report is shown does not change what a check concludes.
-/

namespace LicenseAudit

/-- The options ask for the same check. They may differ in the format, in what is shown, and in
where it goes. -/
structure CheckOptions.SameCheck (o₁ o₂ : CheckOptions) : Prop where
  licenses : o₁.licenses = o₂.licenses
  onUnknown : o₁.onUnknown = o₂.onUnknown
  interactive : o₁.interactive = o₂.interactive
  exitZero : o₁.exitZero = o₂.exitZero

theorem CheckOptions.SameCheck.refl (o : CheckOptions) : o.SameCheck o := ⟨rfl, rfl, rfl, rfl⟩

namespace Run

variable {w : Workspace} {c : Config} {o o₁ o₂ : CheckOptions}

/-! ## Two checks side by side -/

theorem isWatched_congr (h : o₁.SameCheck o₂) : isWatched w c o₁ = isWatched w c o₂ := by
  rw [isWatched, isWatched, h.interactive]

theorem policyOf_congr (h : o₁.SameCheck o₂) : policyOf w c o₁ = policyOf w c o₂ := by
  rw [policyOf, policyOf, h.onUnknown, isWatched_congr h]

theorem verdictOf_congr (h : o₁.SameCheck o₂) (policy : UnknownPolicy) (quiet : Bool)
    (r : Report) : verdictOf o₁ policy quiet r = verdictOf o₂ policy quiet r := by
  rw [verdictOf, verdictOf, h.exitZero]

/-- The text depends on the format and on what it is to show. -/
theorem reportText_congr (hformat : o₁.format = o₂.format) (hall : o₁.showAll = o₂.showAll)
    (policy : UnknownPolicy) (r : Report) :
    reportText c o₁ policy r = reportText c o₂ policy r := by
  rw [reportText, reportText, formatOf, formatOf, hformat, hall]

/-- The same checks fail alike before they have a report, or they have the same one to show. It does
not matter which of them is quiet. -/
theorem check_side_by_side (h : o₁.SameCheck o₂) (w : Workspace) (c : Config) (q₁ q₂ : Bool) :
    (∃ log failure, check w c o₁ q₁ = .failed w.files log failure ∧
        check w c o₂ q₂ = .failed w.files log failure) ∨
      ∃ log r, check w c o₁ q₁ = showReport w c o₁ q₁ log r ∧
        check w c o₂ q₂ = showReport w c o₂ q₂ log r := by
  rw [check, check, h.licenses, isWatched_congr h]
  cases o₂.licenses.or c.currentLicenses with
  | none => exact .inl ⟨_, _, rfl, rfl⟩
  | some path =>
    simp only
    cases w.loadDecisions c.licensesFile with
    | error failure => exact .inl ⟨_, _, rfl, rfl⟩
    | ok d =>
      simp only
      cases w.readListing path with
      | error failure => exact .inl ⟨_, _, rfl, rfl⟩
      | ok listing =>
        simp only
        cases d.review listing with
        | error e => exact .inl ⟨_, _, rfl, rfl⟩
        | ok r => exact .inr ⟨_, _, rfl, rfl⟩

/-! ## Where a report goes -/

/-- The text of a report is on standard output and a line feed behind it, or it is what the output
file has, and nothing is on standard output. -/
def Shown (w : Workspace) (output : Option String) (text : String) (outcome : Outcome) : Prop :=
  match output with
  | none => outcome.out = text ++ "\n" ∧ outcome.files = w.files
  | some path => outcome.out = "" ∧ outcome.files.read path = .ok text

theorem shown_showReport (hout : ∀ p ∈ o.output, w.files.CanWrite p) (log : List LogEntry)
    (r : Report) :
    let policy := policyOf w c o
    let outcome := showReport w c o false log r
    Shown w o.output (reportText c o policy r) outcome ∧ outcome.log = log ∧
      (outcome.exit, outcome.err) = verdictOf o policy false r := by
  intro policy outcome
  have houtcome : outcome = showReport w c o false log r := rfl
  clear_value outcome
  rw [showReport] at houtcome
  cases ho : o.output with
  | none =>
    simp only [ho] at houtcome
    subst houtcome
    exact ⟨⟨rfl, rfl⟩, rfl, rfl⟩
  | some path =>
    obtain ⟨files, hfiles⟩ := hout path ho (reportText c o policy r)
    simp only [ho, policy, hfiles] at houtcome
    subst houtcome
    exact ⟨⟨rfl, FileSystem.read_write hfiles⟩, rfl, rfl⟩

/-! ## Command lines -/

/-- Two command lines ask for the same check, and each of them for its own way of showing the
report, in files that can be written. Both end with the same error report, or both end with the same
exit code and the same words on standard error, which are no error report. If they differ in nothing
but that one has an output file and the other one has none, the file has what the other one shows,
but for the line feed at its end. -/
theorem check_conclusion {words₁ words₂ : List String} {s : Settings}
    (hwords₁ : CommandLine.parse words₁ = .run s (.check o₁))
    (hwords₂ : CommandLine.parse words₂ = .run s (.check o₂)) (hquiet : s.quiet = false)
    (hsame : o₁.SameCheck o₂) (hout₁ : ∀ p ∈ o₁.output, w.files.CanWrite p)
    (hout₂ : ∀ p ∈ o₂.output, w.files.CanWrite p) :
    let run₁ := (commandLine w words₁).1
    let run₂ := (commandLine w words₂).1
    (∃ log failure, run₁ = .failed w.files log failure ∧ run₂ = .failed w.files log failure) ∨
      (run₁.exit = run₂.exit ∧ run₁.log = run₂.log ∧ run₁.err = run₂.err ∧
        (∀ failure : Failure, run₁.err ≠ failure.report) ∧
        ∀ path, o₁.format = o₂.format → o₁.showAll = o₂.showAll → o₁.output = some path →
          o₂.output = none → ∃ text, run₁.files.read path = .ok text ∧ run₁.out = "" ∧
            run₂.out = text ++ "\n" ∧ run₂.files = w.files) := by
  rw [commandLine_run hwords₁, commandLine_run hwords₂, command, command]
  cases hc : w.loadConfig s.config with
  | error failure =>
    simp only [withConfig_of_error hc]
    exact .inl ⟨_, failure, rfl, rfl⟩
  | ok c =>
    simp only [withConfig_of_ok hc, hquiet]
    rcases check_side_by_side hsame w c false false with hfailed | ⟨log, r, hrun₁, hrun₂⟩
    · exact .inl hfailed
    · right
      simp only [hrun₁, hrun₂]
      obtain ⟨hshown₁, hlog₁, hend₁⟩ := shown_showReport (c := c) hout₁ log r
      obtain ⟨hshown₂, hlog₂, hend₂⟩ := shown_showReport (c := c) hout₂ log r
      rw [policyOf_congr hsame] at hshown₁ hend₁
      have hverdict := Prod.mk.inj (hend₁.trans ((verdictOf_congr hsame _ _ r).trans hend₂.symm))
      refine ⟨hverdict.1, hlog₁.trans hlog₂.symm, hverdict.2, ?_, ?_⟩
      · refine Failure.ne_report ?_
        rw [show (showReport w c o₁ false log r).err = _ from congrArg Prod.snd hend₁]
        exact err_verdictOf o₁ _ false r
      · intro path hformat hall hpath hnone
        rw [reportText_congr hformat hall, hpath] at hshown₁
        rw [hnone] at hshown₂
        exact ⟨_, hshown₁.2, hshown₁.1, hshown₂⟩

/-- The output file is the listing itself, and the check fails by its report. -/
theorem check_conclusion_listing :
    let w : Workspace :=
      ⟨⟨[(["p", ".licenses.yaml"], .text "GPL: false"), (["p", "deps"], .text "a,GPL")], [], ["p"]⟩,
        .text "", "/p", false⟩
    let run₁ := (commandLine w ["check", "-l", "deps", "--all", "--output", "deps"]).1
    let run₂ := (commandLine w ["check", "-l", "deps", "--all"]).1
    let run₃ := (commandLine w ["check", "-l", "deps", "--format", "json"]).1
    run₁.exit = 1 ∧ run₂.exit = 1 ∧ run₃.exit = 1 ∧ run₂.err = run₃.err ∧
      ∃ text, run₁.files.read "deps" = .ok text ∧ run₂.out = text ++ "\n" := by
  intro w run₁ run₂ run₃
  have hend : run₂.exit = 1 ∧ run₂.err = "License check failed\n" := by decide
  have hreport : ∀ failure : Failure, run₂.err ≠ failure.report :=
    Failure.ne_report (by rw [hend.2]; decide)
  have hwrite : w.files.CanWrite "deps" := fun _ => ⟨_, rfl⟩
  let options : Option OutputFormat → Option String → Bool → CheckOptions :=
    fun format output showAll => ⟨some "deps", format, output, none, none, showAll, false⟩
  let settings : Settings := ⟨none, false, false, none⟩
  have hsame : ∀ format output showAll, (options format output showAll).SameCheck
      (options none none true) := fun _ _ _ => ⟨rfl, rfl, rfl, rfl⟩
  have hparse₁ : CommandLine.parse ["check", "-l", "deps", "--all", "--output", "deps"] =
      .run settings (.check (options none (some "deps") true)) := rfl
  have hparse₂ : CommandLine.parse ["check", "-l", "deps", "--all"] =
      .run settings (.check (options none none true)) := rfl
  have hparse₃ : CommandLine.parse ["check", "-l", "deps", "--format", "json"] =
      .run settings (.check (options (some .json) none false)) := rfl
  have hfile := check_conclusion (w := w) hparse₁ hparse₂ rfl (hsame ..)
    (fun p hp => Option.some.inj hp ▸ hwrite) (fun _ hp => nomatch hp)
  have hjson := check_conclusion (w := w) hparse₃ hparse₂ rfl (hsame ..)
    (fun _ hp => nomatch hp) (fun _ hp => nomatch hp)
  rcases hfile with ⟨log, failure, -, hfailed⟩ | ⟨hexit, -, -, -, hshown⟩
  · exact absurd (congrArg Outcome.err hfailed) (hreport failure)
  rcases hjson with ⟨log, failure, -, hfailed⟩ | ⟨hexit', -, herr, -, -⟩
  · exact absurd (congrArg Outcome.err hfailed) (hreport failure)
  obtain ⟨text, hread, -, hout, -⟩ := hshown "deps" rfl rfl rfl rfl
  exact ⟨hexit.trans hend.1, hend.1, hexit'.trans hend.1, herr.symm, text, hread, hout⟩

end Run

end LicenseAudit
