import LicenseAudit.Proofs.DecisionFile
import LicenseAudit.Run

/-!
# What runs change

A run reads everything it needs before it writes, and it writes once at most. So a run that ends
with an error report has written nothing: the only write that it may have tried is the one that
failed. A check whose report fails is no such run; it has its own last words, and its output is
written.

Results:
1. `check_finding`: a check shows what it finds, or fails with it.
2. `Effect.of_write`: the effect of a run that ends after a write.
3. `showReport_cases`, `check_writes`: what becomes of a report.
4. `effect_check`, `effect_decide`: the effects of the two commands that write.
5. `commandLine_changes`: what any command line changes.
-/

namespace LicenseAudit

namespace FileSystem

/-- No file is different but one, where the path leads to. -/
structure ChangesOnly (before after : FileSystem) (path : String) : Prop where
  directories : after.directories = before.directories
  current : after.current = before.current
  target : ∀ loc, after.get? loc ≠ before.get? loc → before.target path = .ok loc

theorem changesOnly_of_write {fs fs' : FileSystem} {path text : String}
    (h : fs.write path text = .ok fs') : ChangesOnly fs fs' path := by
  obtain ⟨loc, -, -, hset⟩ := write_eq_ok_iff.1 h
  refine ⟨?_, ?_, fun _ => target_of_get?_ne h⟩ <;> rw [hset] <;> rfl

end FileSystem

/-- An error report starts with a word of its own, and then comes the failure. -/
theorem Failure.report_toList (f : Failure) :
    f.report.toList =
      "Error: ".toList ++ (f.message.toList ++ ((causeLines f.causes).toList ++ ['\n'])) := by
  simp [report, String.toList_append]

/-- Last words that start otherwise are no error report. -/
theorem Failure.ne_report {text : String} (h : text.toList.head? ≠ some 'E') (f : Failure) :
    text ≠ f.report := by
  rintro rfl
  rw [f.report_toList] at h
  exact h rfl

/-! ## Effects -/

/-- The run changes one file at most, where the path leads to if there is one. If it ends with an
error report, it changes none. -/
structure Effect (before : FileSystem) (path : Option String) (o : Outcome) : Prop where
  changes : o.files = before ∨ ∃ p ∈ path, before.ChangesOnly o.files p
  reported : ∀ f : Failure, o.err = f.report → o.files = before

namespace Effect

variable {before : FileSystem} {path : Option String} {o : Outcome}

theorem of_files (h : o.files = before) : Effect before path o := ⟨.inl h, fun _ _ => h⟩

theorem failed (log : List LogEntry) (f : Failure) : Effect before path (.failed before log f) :=
  of_files rfl

theorem of_write {p text : String} (hp : path = some p) (h : before.write p text = .ok o.files)
    (herr : o.err.toList.head? ≠ some 'E') : Effect before path o where
  changes := .inr ⟨p, hp, FileSystem.changesOnly_of_write h⟩
  reported f hf := absurd hf (Failure.ne_report herr f)

/-- Without a path no file is changed. -/
theorem files_eq (h : Effect before none o) : o.files = before :=
  h.changes.resolve_right fun ⟨_, hp, _⟩ => (nomatch hp)

end Effect

namespace Run

variable {w : Workspace} {c : Config} {o : CheckOptions}

/-- What a check finds before it shows anything: a report, or the failure that ends the run. -/
def finding (w : Workspace) (c : Config) (o : CheckOptions) : Except Failure Report :=
  match o.licenses.or c.currentLicenses with
  | none => .error .noListing
  | some path =>
    match w.loadDecisions c.licensesFile with
    | .error failure => .error failure
    | .ok d =>
      match w.readListing path with
      | .error failure => .error failure
      | .ok listing => (d.review listing).mapError .check

/-- A check shows the report that it finds, or else it fails. -/
theorem check_finding (w : Workspace) (c : Config) (o : CheckOptions) (quiet : Bool) :
    ∃ log, check w c o quiet =
      match finding w c o with
      | .ok r => showReport w c o quiet log r
      | .error failure => .failed w.files log failure := by
  unfold check finding
  cases o.licenses.or c.currentLicenses with
  | none => exact ⟨_, rfl⟩
  | some path =>
    simp only
    cases w.loadDecisions c.licensesFile with
    | error failure => exact ⟨_, rfl⟩
    | ok d =>
      simp only
      cases w.readListing path with
      | error failure => exact ⟨_, rfl⟩
      | ok listing =>
        simp only
        cases d.review listing <;> exact ⟨_, rfl⟩

/-- A report is shown, or it is written to a file, or that file cannot be written. -/
theorem showReport_cases (w : Workspace) (c : Config) (o : CheckOptions) (quiet : Bool)
    (log : List LogEntry) (r : Report) :
    let verdict := verdictOf o (policyOf w c o) quiet r
    (o.output = none ∧
        ∃ out, showReport w c o quiet log r = ⟨verdict.1, out, log, verdict.2, w.files⟩) ∨
      (∃ path files, o.output = some path ∧
        w.files.write path (reportText c o (policyOf w c o) r) = .ok files ∧
        showReport w c o quiet log r = ⟨verdict.1, "", log, verdict.2, files⟩) ∨
      ∃ fault, showReport w c o quiet log r = .failed w.files log (.outputUnwritable fault) := by
  intro verdict
  rw [showReport]
  cases o.output with
  | none => exact .inl ⟨rfl, _, rfl⟩
  | some path =>
    right
    cases hfiles : w.files.write path (reportText c o (policyOf w c o) r) with
    | error fault =>
      simp only [hfiles]
      exact .inr ⟨fault, rfl⟩
    | ok files =>
      simp only [hfiles]
      exact .inl ⟨path, files, rfl, hfiles, rfl⟩

/-- A check that fails by its report does not end with an error report. -/
theorem err_verdictOf (o : CheckOptions) (policy : UnknownPolicy) (quiet : Bool) (r : Report) :
    (verdictOf o policy quiet r).2.toList.head? ≠ some 'E' := by
  rw [verdictOf]
  split
  · cases quiet <;> decide
  · decide

theorem effect_showReport (w : Workspace) (c : Config) (o : CheckOptions) (quiet : Bool)
    (log : List LogEntry) (r : Report) : Effect w.files o.output (showReport w c o quiet log r) := by
  rcases showReport_cases w c o quiet log r with
    ⟨-, out, hshown⟩ | ⟨path, files, hpath, hfiles, hshown⟩ | ⟨fault, hshown⟩ <;> rw [hshown]
  · exact .of_files rfl
  · exact .of_write hpath hfiles (err_verdictOf o _ quiet r)
  · exact .failed log _

theorem effect_check (w : Workspace) (c : Config) (o : CheckOptions) (quiet : Bool) :
    Effect w.files o.output (check w c o quiet) := by
  obtain ⟨log, hcheck⟩ := check_finding w c o quiet
  rw [hcheck]
  split
  · exact effect_showReport w c o quiet log _
  · exact .failed log _

/-- A check with an output either ends with an error report or has written what it found. -/
theorem check_writes {path : String} (hpath : o.output = some path) (quiet : Bool) :
    (∃ failure : Failure, (check w c o quiet).err = failure.report) ∨
      ∃ r, finding w c o = .ok r ∧
        w.files.write path (reportText c o (policyOf w c o) r) = .ok (check w c o quiet).files := by
  obtain ⟨log, hcheck⟩ := check_finding w c o quiet
  rw [hcheck]
  cases finding w c o with
  | error failure => exact .inl ⟨failure, rfl⟩
  | ok r =>
    rcases showReport_cases w c o quiet log r with
      ⟨hnone, -⟩ | ⟨_, files, hsome, hfiles, hshown⟩ | ⟨fault, hshown⟩
    · rw [hpath] at hnone
      cases hnone
    · obtain rfl := Option.some.inj (hpath.symm.trans hsome)
      refine .inr ⟨r, rfl, ?_⟩
      simp only [hshown, hfiles]
    · exact .inl ⟨.outputUnwritable fault, congrArg Outcome.err hshown⟩

theorem effect_decide (w : Workspace) (c : Config) (allowed : Bool) (licenses : List String)
    (quiet : Bool) : Effect w.files (some c.licensesFile) (decide w c allowed licenses quiet) := by
  rw [decide]
  cases w.loadDecisions c.licensesFile with
  | error failure => exact .failed _ _
  | ok d =>
    simp only
    cases hsave : w.saveDecisions c.licensesFile (d.recordAll (licenses.map (·, allowed))) with
    | error failure => exact .failed _ _
    | ok w' =>
      obtain ⟨files, hfiles, rfl⟩ := Workspace.saveDecisions_eq_ok_iff.1 hsave
      exact .of_write rfl hfiles (by simp)

theorem files_eval (w : Workspace) (c : Config) (expression : String) (allow deny : List String) :
    (eval w c expression allow deny).files = w.files := by
  rw [eval]
  split
  · rfl
  · simp only
    split
    · rfl
    · rfl
    · split <;> rfl
    · rfl

theorem files_config (w : Workspace) (path : Option String) (showIt validate quiet : Bool) :
    (config w path showIt validate quiet).files = w.files := by
  rw [config]
  split
  · rfl
  · split <;> rfl

/-! ## Command lines -/

/-- The file that a command writes, if it writes one. -/
def written (c : Config) : Command → Option String
  | .check o => o.output
  | .eval _ _ _ => none
  | .decide _ _ => some c.licensesFile
  | .config _ _ => none

/-- A command has an effect on its own file only, and without a configuration on none. -/
theorem effect_command (w : Workspace) (s : Settings) (command : Command) :
    (Run.command w s command).files = w.files ∨
      ∃ c, w.loadConfig s.config = .ok c ∧
        Effect w.files (written c command) (Run.command w s command) := by
  cases hc : w.loadConfig s.config with
  | error failure =>
    left
    cases command with
    | config showIt validate => exact files_config ..
    | _ => rw [Run.command, withConfig_of_error hc, Outcome.failed]
  | ok c =>
    refine .inr ⟨c, rfl, ?_⟩
    cases command with
    | config showIt validate => exact .of_files (files_config ..)
    | check options =>
      rw [Run.command, withConfig_of_ok hc]
      exact effect_check w c options s.quiet
    | eval expression allow deny =>
      rw [Run.command, withConfig_of_ok hc]
      exact .of_files (files_eval ..)
    | decide allowed licenses =>
      rw [Run.command, withConfig_of_ok hc]
      exact effect_decide w c allowed licenses s.quiet

section

variable {words : List String} {s : Settings} {command : Command}

theorem effect_commandLine (h : CommandLine.parse words = .run s command) :
    (commandLine w words).1.files = w.files ∨
      ∃ c, w.loadConfig s.config = .ok c ∧
        Effect w.files (written c command) (commandLine w words).1 := by
  rw [commandLine_run h]
  exact effect_command w s command

theorem files_of_written_none (h : CommandLine.parse words = .run s command)
    (hnone : ∀ c, written c command = none) : (commandLine w words).1.files = w.files := by
  rcases effect_commandLine h with hsame | ⟨c, -, heffect⟩
  · exact hsame
  · rw [hnone] at heffect
    exact heffect.files_eq

theorem files_of_not_run (h : ∀ s command, CommandLine.parse words ≠ .run s command) :
    (commandLine w words).1.files = w.files := by
  cases hparse : CommandLine.parse words with
  | run s command => exact absurd hparse (h s command)
  | _ => simp only [commandLine, hparse, request]

theorem files_of_report {failure : Failure} (herr : (commandLine w words).1.err = failure.report) :
    (commandLine w words).1.files = w.files := by
  by_cases hrun : ∃ s command, CommandLine.parse words = .run s command
  · obtain ⟨s, command, h⟩ := hrun
    rcases effect_commandLine h with hsame | ⟨c, -, heffect⟩
    · exact hsame
    · exact heffect.reported failure herr
  · exact files_of_not_run fun s command h => hrun ⟨s, command, h⟩

end

/-- A run that only shows something changes no file. A check changes at most the file that its
output goes to, and it writes that file even if the report fails. A decision changes at most the
file of decisions. A run that ends with an error report changes no file, whatever it was to do, and
nor does a command line that makes no sense. -/
theorem commandLine_changes (w : Workspace) (words : List String) :
    let outcome := (commandLine w words).1
    (∀ s expression allow deny,
        CommandLine.parse words = .run s (.eval expression allow deny) →
          outcome.files = w.files) ∧
      (∀ s showIt validate, CommandLine.parse words = .run s (.config showIt validate) →
        outcome.files = w.files) ∧
      (∀ s options, CommandLine.parse words = .run s (.check options) →
        outcome.files = w.files ∨
          ∃ path, options.output = some path ∧ w.files.ChangesOnly outcome.files path) ∧
      (∀ s options path, CommandLine.parse words = .run s (.check options) →
        options.output = some path →
          (∃ failure : Failure, outcome.err = failure.report) ∨
            ∃ c r, w.loadConfig s.config = .ok c ∧ finding w c options = .ok r ∧
              w.files.write path (reportText c options (policyOf w c options) r) =
                .ok outcome.files) ∧
      (∀ s allowed licenses, CommandLine.parse words = .run s (.decide allowed licenses) →
        outcome.files = w.files ∨
          ∃ c, w.loadConfig s.config = .ok c ∧
            w.files.ChangesOnly outcome.files c.licensesFile) ∧
      (∀ failure : Failure, outcome.err = failure.report → outcome.files = w.files) ∧
      ((∀ s command, CommandLine.parse words ≠ .run s command) → outcome.files = w.files) := by
  intro outcome
  refine ⟨fun s expression allow deny h => files_of_written_none h fun _ => rfl,
    fun s showIt validate h => files_of_written_none h fun _ => rfl, fun s options h => ?_,
    fun s options path h hpath => ?_, fun s allowed licenses h => ?_,
    fun failure => files_of_report, files_of_not_run⟩
  · exact (effect_commandLine h).elim .inl fun ⟨_, _, heffect⟩ => heffect.changes
  · have houtcome : outcome = Run.command w s (.check options) := commandLine_run h
    rw [houtcome, Run.command]
    cases hc : w.loadConfig s.config with
    | error failure => exact .inl ⟨failure, by rw [withConfig_of_error hc, Outcome.failed]⟩
    | ok c =>
      rw [withConfig_of_ok hc]
      rcases check_writes hpath s.quiet with hfailed | ⟨r, hr, hfiles⟩
      · exact .inl hfailed
      · exact .inr ⟨c, r, rfl, hr, hfiles⟩
  · rcases effect_commandLine h with hsame | ⟨c, hc, heffect⟩
    · exact .inl hsame
    · refine heffect.changes.imp_right fun ⟨path, hpath, honly⟩ => ⟨c, hc, ?_⟩
      obtain rfl := Option.some.inj hpath
      exact honly

/-- The output of a check is written even if the check fails. -/
example :
    let w : Workspace :=
      ⟨⟨[(["p", ".licenses.yaml"], .text "GPL: false"), (["p", "deps"], .text "a,GPL")], [], ["p"]⟩,
        .text "", "/p", false⟩
    let outcome := (commandLine w ["check", "-l", "deps", "-o", "out"]).1
    outcome.exit = 1 ∧ outcome.err = "License check failed\n" ∧
      (outcome.files.get? ["p", "out"]).isSome = true := by
  decide

end Run

end LicenseAudit
