import LicenseAudit.Proofs.CommandLine
import LicenseAudit.Proofs.Presentation

/-!
# Quiet runs

Every command line can be made quiet. Commands that check, decide or look at the configuration write
nothing to standard output then, and they end and leave the files as they would otherwise. An
evaluation is not told that it is to be quiet, and it answers all the same.

Results:
1. `silences_check`, `silences_decide`, `silences_config`: the commands that take notice.
2. `silences_command`: what they have in common.
3. `quiet_silences`: what becomes of a command line that is made quiet.
-/

namespace LicenseAudit

/-- The quiet run writes nothing to standard output. Otherwise it does what the loud one does. -/
structure Outcome.Silences (quiet loud : Outcome) : Prop where
  out : quiet.out = ""
  exit : quiet.exit = loud.exit
  log : quiet.log = loud.log
  files : quiet.files = loud.files

namespace Run

variable {w : Workspace} {s : Settings} {words : List String}

theorem silences_failed (files : FileSystem) (log : List LogEntry) (f : Failure) :
    (Outcome.failed files log f).Silences (.failed files log f) := ⟨rfl, rfl, rfl, rfl⟩

theorem exit_verdictOf (o : CheckOptions) (policy : UnknownPolicy) (q₁ q₂ : Bool) (r : Report) :
    (verdictOf o policy q₁ r).1 = (verdictOf o policy q₂ r).1 := by
  rw [verdictOf, verdictOf]
  split <;> rfl

theorem silences_showReport (w : Workspace) (c : Config) (o : CheckOptions) (log : List LogEntry)
    (r : Report) :
    (showReport w c o true log r).Silences (showReport w c o false log r) := by
  have hexit := exit_verdictOf o (policyOf w c o) true false r
  rw [showReport, showReport]
  cases o.output with
  | none => exact ⟨rfl, hexit, rfl, rfl⟩
  | some path =>
    simp only
    cases w.files.write path (reportText c o (policyOf w c o) r) with
    | error fault => exact silences_failed _ _ _
    | ok files => exact ⟨rfl, hexit, rfl, rfl⟩

theorem silences_check (w : Workspace) (c : Config) (o : CheckOptions) :
    (check w c o true).Silences (check w c o false) := by
  rcases check_side_by_side (.refl o) w c true false with
    ⟨log, failure, hquiet, hloud⟩ | ⟨log, r, hquiet, hloud⟩ <;> rw [hquiet, hloud]
  · exact silences_failed _ _ _
  · exact silences_showReport w c o log r

theorem silences_decide (w : Workspace) (c : Config) (allowed : Bool) (licenses : List String) :
    (decide w c allowed licenses true).Silences (decide w c allowed licenses false) := by
  rw [decide, decide]
  cases w.loadDecisions c.licensesFile with
  | error failure => exact silences_failed _ _ _
  | ok d =>
    simp only
    cases w.saveDecisions c.licensesFile (d.recordAll (licenses.map (·, allowed))) with
    | error failure => exact silences_failed _ _ _
    | ok saved => exact ⟨rfl, rfl, rfl, rfl⟩

theorem silences_config (w : Workspace) (path : Option String) (showIt validate : Bool) :
    (config w path showIt validate true).Silences (config w path showIt validate false) := by
  rw [config, config]
  split
  · exact ⟨rfl, rfl, rfl, rfl⟩
  · cases w.loadConfig path with
    | error failure => exact ⟨rfl, rfl, rfl, rfl⟩
    | ok c => exact ⟨rfl, rfl, rfl, rfl⟩

theorem silences_withConfig (w : Workspace) (path : Option String) {quiet loud : Config → Outcome}
    (h : ∀ c, (quiet c).Silences (loud c)) :
    (withConfig w path quiet).Silences (withConfig w path loud) := by
  rw [withConfig, withConfig]
  cases w.loadConfig path with
  | error failure => exact silences_failed _ _ _
  | ok c => exact h c

/-- The commands that know whether they are to be quiet. -/
def heedsQuiet : Command → Bool
  | .eval _ _ _ => false
  | _ => true

/-- All commands but an evaluation are silenced. If they need a configuration that cannot be loaded,
they fail with that, quiet or not. -/
theorem silences_command {cmd : Command} (h : heedsQuiet cmd = true) (hs : s.quiet = false)
    (w : Workspace) :
    (command w { s with quiet := true } cmd).Silences (command w s cmd) := by
  cases cmd with
  | eval expression allow deny => cases h
  | config showIt validate =>
    simp only [command, hs]
    exact silences_config w s.config showIt validate
  | check options =>
    simp only [command, hs]
    exact silences_withConfig w s.config fun c => silences_check w c options
  | decide allowed licenses =>
    simp only [command, hs]
    exact silences_withConfig w s.config fun c => silences_decide w c allowed licenses

/-- A command line that is not quiet can be made so by a flag in front. With whatever words it is
asked for, the quiet run has the same exit code and leaves the same files. It writes nothing to
standard output, unless the command is an evaluation: an evaluation does the same as if it were not
quiet. -/
theorem quiet_silences {cmd : Command} (h : CommandLine.parse words = .run s cmd)
    (hs : s.quiet = false) (w : Workspace) :
    CommandLine.parse ("--quiet" :: words) = .run { s with quiet := true } cmd ∧
      ∀ quietly, CommandLine.parse quietly = .run { s with quiet := true } cmd →
        let quiet := (commandLine w quietly).1
        let loud := (commandLine w words).1
        quiet.exit = loud.exit ∧ quiet.files = loud.files ∧
          (heedsQuiet cmd = true → quiet.out = "") ∧ (heedsQuiet cmd = false → quiet = loud) := by
  refine ⟨CommandLine.parse_quiet h hs, fun quietly hquietly => ?_⟩
  rw [commandLine_run h, commandLine_run hquietly]
  cases hheeds : heedsQuiet cmd with
  | true =>
    have hsilences := silences_command hheeds hs w
    exact ⟨hsilences.exit, hsilences.files, fun _ => hsilences.out, nofun⟩
  | false =>
    cases cmd with
    | eval expression allow deny => exact ⟨rfl, rfl, nofun, fun _ => rfl⟩
    | _ => cases hheeds

/-- A decision is recorded in the same file and in the same way, and nothing is said about it. -/
theorem quiet_silences_deny :
    let w : Workspace :=
      ⟨⟨[(["p", ".licenses.yaml"], .text "MIT: true")], [], ["p"]⟩, .text "", "/p", false⟩
    let quiet := (commandLine w ["--quiet", "deny", "GPL", "-v"]).1
    let loud := (commandLine w ["deny", "GPL", "-v"]).1
    loud.out = "✅ GPL is now disallowed\nSaved decisions to .licenses.yaml\n" ∧ quiet.out = "" ∧
      quiet.exit = loud.exit ∧ quiet.files = loud.files ∧
      quiet.files.read ".licenses.yaml" = .ok "GPL: false\nMIT: true\n" := by
  intro w quiet loud
  have hparse : CommandLine.parse ["deny", "GPL", "-v"] =
      .run ⟨none, true, false, none⟩ (.decide false ["GPL"]) := rfl
  obtain ⟨hquietly, hquiet⟩ := quiet_silences hparse rfl w
  obtain ⟨hexit, hfiles, hout, -⟩ := hquiet _ hquietly
  have hloud : loud.out = "✅ GPL is now disallowed\nSaved decisions to .licenses.yaml\n" ∧
      loud.files.read ".licenses.yaml" = .ok "GPL: false\nMIT: true\n" := by
    decide
  exact ⟨hloud.1, hout rfl, hexit, hfiles, hfiles ▸ hloud.2⟩

/-- An evaluation that is asked to be quiet gives its answer. -/
theorem quiet_eval_answers :
    let w : Workspace := ⟨⟨[], [], ["p"]⟩, .text "", "/p", false⟩
    let words := ["-q", "eval", "MIT", "--allow", "MIT"]
    CommandLine.parse words = .run ⟨none, false, true, none⟩ (.eval "MIT" ["MIT"] []) ∧
      (commandLine w words).1.out = "allowed\n" ∧ (commandLine w words).1.out ≠ "" := by
  decide

end Run

end LicenseAudit
